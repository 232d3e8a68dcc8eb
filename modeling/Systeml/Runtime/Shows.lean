import Systeml.Runtime.Watch

/-!
# Where the watch is right

Every step that is `Watchable` keeps the watch right about every timer (`Watch.Sound`). A
timer that shows `running` is to flip, or its unit is watched and is active unless an event
that says otherwise is still to be received (`Watched`). Of a unit that is up because of a
timer no such event is on its way, so the timer is not to flip (`Held`).

There is one lemma for each step of the scheduler and one for what others do; `timers_show`
is about the runs.
-/

namespace Systeml.Runtime

open Systeml.Lib Systeml.Unit Systeml.Deps

theorem mem_drop_append {α : Type} {l new : List α} {k : Nat} (hk : k ≤ l.length) {e : α} :
    e ∈ (l ++ new).drop k ↔ e ∈ l.drop k ∨ e ∈ new := by
  rw [List.drop_append_of_le_length hk, List.mem_append]

namespace World

variable {w w' : World} {u : UnitName}

/-- The unit is shown as active. -/
def ShownActive (w : World) (u : UnitName) : Prop := ∃ sub, w.shown u = some (.active, sub)

theorem shownActive_iff (hidle : w.reloading = none) :
    w.ShownActive u ↔ w.mgr.isActive u = true := by
  unfold ShownActive Manager.isActive
  rw [shown_of_idle hidle]
  cases w.mgr.status.get? u with
  | none => simp
  | some st => simp [UnitStatus.shown]

/-- What is shown where a status was marked. -/
theorem shown_marked {f : UnitStatus → UnitStatus} {x : Shown} (hidle : w.reloading = none)
    (hidle' : w'.reloading = none) (hf : ∀ st, (f st).shown = x)
    (h : w'.mgr.status.get? u = (w.mgr.status.get? u).map f) :
    w'.shown u = (w.shown u).map fun _ => x := by
  rw [shown_of_idle hidle, shown_of_idle hidle', h, Option.map_map, Option.map_map]
  congr 1
  exact funext hf

theorem shown_mark (hidle : w.reloading = none) (n : UnitName) (a : ActiveState) (b : SubState)
    (u : UnitName) : World.shown { w with mgr := w.mgr.markState n a b } u =
      if u = n then (w.shown u).map fun _ => (a, b) else w.shown u := by
  have hstatus := Manager.markState_status w.mgr n u a b
  split
  next hn => exact shown_marked hidle hidle (fun _ => rfl) (hstatus.trans (if_pos hn))
  next hn => exact shown_congr (hstatus.trans (if_neg hn)) rfl

/-- A request is only taken while the lock is free. -/
theorem free_of_asks {p : TaskKind → Bool} {l : Label} (h : l.asks p u) (hs : w.step l = some w') :
    w.lock = .free := by
  obtain ⟨id, kind, hcall, -⟩ := h
  cases l with
  | startUnit n | stopUnit n | restartUnit n | reloadUnit n | fire timer n =>
    exact (request_tasks rfl hs).1
  | daemonReload disk | reloadStep | task i resp | exit p =>
    exact absurd hcall (by simp [Label.call])

/-- The events of a step, and what they mean for the units that are no services. -/
theorem follows_all {c : Call} (h : Tidy w) (hs : w.call c = some w')
    (hfire : ∀ timer target, c ≠ .other (.fire timer target)) :
    ∃ new, w'.mgr.events = w.mgr.events ++ new ∧
      ∀ u, u.kind ≠ .service → Follows c u w w' new := by
  obtain ⟨new, he, -⟩ := follows_call (u := ⟨[], none, .timer⟩) h (by simp) hs hfire
  refine ⟨new, he, fun u hu => ?_⟩
  obtain ⟨new', he', hf⟩ := follows_call h hu hs hfire
  rwa [List.append_cancel_left (he.symm.trans he')]

/-- What does not end a unit that is no service, does not drop it. -/
theorem Follows.not_drops {c : Call} {new : List UnitEvent} (h : Follows c u w w' new)
    (hends : ∀ e ∈ new, e.ends u = false) : ∀ e ∈ new, e.drops u = false := by
  intro e he
  have hend := hends e he
  cases e with
  | stateChanged n a sub =>
    by_cases hn : n = u
    · subst hn
      obtain rfl | rfl := h.plain a sub he
      · simp [UnitEvent.drops]
      · simp [UnitEvent.ends] at hend
    · simp [UnitEvent.drops, hn]
  | unitRemoved n => exact hend
  | unitNew n | jobNew id n k | jobRemoved id n o => rfl

end World

namespace Watch

/-- An event that is still to be received says that the unit is not active. -/
def DropPending (s : Watch) (u : UnitName) : Prop :=
  ∃ e ∈ s.world.mgr.events.drop s.seen, e.drops u = true

/-- The timer is to flip, or the scheduler watches the unit, which is active or is known
not to be as soon as the events are received. -/
structure Watched (s : Watch) (t : UnitName) (f : LastFire) : Prop where
  kind : f.target.kind ≠ .service
  watch : t ∈ s.flips ∨ s.triggers.get? f.target = some t ∧
    (s.world.ShownActive f.target ∨ s.DropPending f.target)

/-- The unit is active, the timer shows it, and nothing is on its way to flip it. -/
structure Held (s : Watch) (t : UnitName) (f : LastFire) : Prop where
  kind : f.target.kind ≠ .service
  active : s.world.ShownActive f.target
  running : ∀ sub, s.world.shown t = some (.active, sub) → sub = .running
  flips : t ∉ s.flips
  single : ∀ u, s.triggers.get? u = some t → u = f.target
  fresh : ¬ s.DropPending f.target

/-- The watch is right about every timer. -/
structure Sound (s : Watch) : Prop where
  tidy : World.Tidy s.world
  seen : s.seen ≤ s.world.mgr.events.length
  fired : ∀ t f, s.fires.get? t = some f → t.kind = .timer ∧ f.sent ≤ s.world.mgr.events.length
  watched : ∀ t, t.kind = .timer → s.world.shown t = some (.active, .running) →
    ∃ f, s.fires.get? t = some f ∧ s.Watched t f
  held : ∀ t f, s.fires.get? t = some f → s.NotEnded f → s.Held t f

variable {s s' : Watch}

/-- A timer is no service. -/
theorem kind_of_timer {t : UnitName} (h : t.kind = .timer) : t.kind ≠ .service := by
  rw [h]
  simp

theorem dropPending_of_append {new : List UnitEvent} {u : UnitName}
    (hseen : s.seen ≤ s.world.mgr.events.length) (hs : s'.seen = s.seen)
    (he : s'.world.mgr.events = s.world.mgr.events ++ new) :
    s'.DropPending u ↔ s.DropPending u ∨ ∃ e ∈ new, e.drops u = true := by
  unfold DropPending
  simp only [he, hs, mem_drop_append hseen, or_and_right, exists_or]

/-- Events that drop no unit bring no event that does. -/
theorem not_dropPending_of_append {new : List UnitEvent} {u : UnitName} (h : ¬ s.DropPending u)
    (hseen : s.seen ≤ s.world.mgr.events.length) (hs : s'.seen = s.seen)
    (he : s'.world.mgr.events = s.world.mgr.events ++ new)
    (hnew : ∀ e ∈ new, e.drops u = false) : ¬ s'.DropPending u := by
  intro hpend
  obtain hpend | ⟨e, hmem, hdrops⟩ := (dropPending_of_append hseen hs he).mp hpend
  · exact h hpend
  · rw [hnew e hmem] at hdrops
    exact absurd hdrops (by simp)

theorem NotEnded.of_append {new : List UnitEvent} {f : LastFire} (h : s'.NotEnded f)
    (hsent : f.sent ≤ s.world.mgr.events.length)
    (he : s'.world.mgr.events = s.world.mgr.events ++ new) :
    s.NotEnded f ∧ ∀ e ∈ new, e.ends f.target = false := by
  obtain ⟨hbrought, hends⟩ := h
  rw [he] at hends
  exact ⟨⟨hbrought, fun e hmem => hends e ((mem_drop_append hsent).mpr (Or.inl hmem))⟩,
    fun e hmem => hends e ((mem_drop_append hsent).mpr (Or.inr hmem))⟩

/-- With the lock free, what is held is up since it was fired. -/
theorem Held.holds {t : UnitName} {f : LastFire} (h : s.Held t f) (hidle : s.world.reloading = none)
    (hf : s.fires.get? t = some f) (hne : s.NotEnded f) (hloaded : s.world.shown t ≠ none) :
    s.Holds t := by
  refine ⟨?_, f, hf, hne, ?_⟩
  · rw [World.shown_of_idle hidle] at hloaded
    cases hst : s.world.mgr.status.get? t with
    | none =>
      rw [hst] at hloaded
      exact absurd rfl hloaded
    | some st => rfl
  · have hactive := (World.shownActive_iff hidle).mp h.active
    unfold Manager.isActive at hactive
    unfold Manager.isUp
    cases hst : s.world.mgr.status.get? f.target with
    | none =>
      rw [hst] at hactive
      exact absurd hactive (by simp)
    | some st =>
      rw [hst] at hactive
      simpa using Or.inl (of_decide_eq_true hactive)

/-- **What others do is noticed.** -/
theorem sound_call {c : Call} {w' : World} (h : Sound s) (hs : s.world.call c = some w')
    (hfire : ∀ timer target, c ≠ .other (.fire timer target)) (hok : s.Watchable (.call c)) :
    Sound { s with world := w' } := by
  obtain ⟨new, he, hfollows⟩ := World.follows_all h.tidy hs hfire
  -- a unit that is put in was not active
  have hput : ∀ t f, s.fires.get? t = some f → s.world.ShownActive f.target →
      ∀ lu, c ≠ .insertLoaded f.target lu := by
    rintro t f hf hactive lu rfl
    have hidle := World.reloading_of_free (World.ifFree_eq hs).1
    have hdown : s.world.mgr.isActive f.target = false := hok t f hf rfl
    rw [(World.shownActive_iff hidle).mp hactive] at hdown
    exact absurd hdown (by simp)
  have hpending : ∀ u, DropPending { s with world := w' } u ↔ s.DropPending u ∨
      ∃ e ∈ new, e.drops u = true := fun u => dropPending_of_append h.seen rfl he
  refine ⟨World.tidy_call h.tidy hs, ?_, ?_, ?_, ?_⟩
  · show s.seen ≤ w'.mgr.events.length
    rw [he, List.length_append]
    exact Nat.le_add_right_of_le h.seen
  · intro t f hf
    obtain ⟨hk, hsent⟩ := h.fired t f hf
    refine ⟨hk, ?_⟩
    show f.sent ≤ w'.mgr.events.length
    rw [he, List.length_append]
    exact Nat.le_add_right_of_le hsent
  · intro t hk hrun
    obtain hrun | ⟨-, hsub, -⟩ := (hfollows t (kind_of_timer hk)).comes _ hrun
    · obtain ⟨f, hf, hkind, hflip | ⟨hentry, hup⟩⟩ := h.watched t hk hrun
      · exact ⟨f, hf, hkind, Or.inl hflip⟩
      · refine ⟨f, hf, hkind, Or.inr ⟨hentry, ?_⟩⟩
        obtain ⟨sub, hsub⟩ | hdrop := hup
        · by_cases hnew : ∀ e ∈ new, e.drops f.target = false
          · exact Or.inl ((hfollows _ hkind).stays sub hsub hnew (hput t f hf ⟨sub, hsub⟩))
          · push Not at hnew
            obtain ⟨e, hmem, hdrop⟩ := hnew
            exact Or.inr ((hpending _).mpr (Or.inr ⟨e, hmem, by simpa using hdrop⟩))
        · exact Or.inr ((hpending _).mpr (Or.inl hdrop))
    · rw [hk] at hsub
      exact absurd hsub (by simp [Manager.startedSub])
  · intro t f hf hne
    obtain ⟨hk, hsent⟩ := h.fired t f hf
    obtain ⟨hbefore, hends⟩ := hne.of_append hsent he
    have hheld := h.held t f hf hbefore
    have hnew := (hfollows _ hheld.kind).not_drops hends
    refine ⟨hheld.kind, ?_, ?_, hheld.flips, hheld.single,
      not_dropPending_of_append hheld.fresh h.seen rfl he hnew⟩
    · obtain ⟨sub, hsub⟩ := hheld.active
      exact (hfollows _ hheld.kind).stays sub hsub hnew (hput t f hf ⟨sub, hsub⟩)
    · intro sub hsub
      obtain hsub | ⟨hloaded, -, l, rfl, id, kind, hcall, hstarts⟩ :=
        (hfollows t (kind_of_timer hk)).comes sub hsub
      · exact hheld.running sub hsub
      · -- nobody starts a timer whose unit is up
        have hl : s.world.step l = some w' := by
          cases l with
          | daemonReload disk => exact absurd hs (by simp [World.call])
          | _ => exact hs
        have hidle := World.reloading_of_free (World.free_of_asks ⟨id, kind, hcall, hstarts⟩ hl)
        exact absurd (hheld.holds hidle hf hbefore hloaded) (hok t ⟨id, kind, hcall, hstarts⟩)

/-- What the scheduler learns changes neither the manager nor what was fired. -/
theorem Sound.learn (h : Sound s) (hw : s'.world = s.world) (hfires : s'.fires = s.fires)
    (hseen : s'.seen ≤ s.world.mgr.events.length)
    (hwatched : ∀ t f, s.world.shown t = some (.active, .running) → s.Watched t f → s'.Watched t f)
    (hheld : ∀ t f, s.Held t f → s'.Held t f) : Sound s' := by
  refine ⟨hw ▸ h.tidy, hw ▸ hseen, ?_, ?_, ?_⟩
  · intro t f hf
    rw [hw]
    exact h.fired t f (hfires ▸ hf)
  · intro t hk hrun
    rw [hw] at hrun
    obtain ⟨f, hf, hwatch⟩ := h.watched t hk hrun
    exact ⟨f, hfires ▸ hf, hwatched t f hrun hwatch⟩
  · intro t f hf hne
    unfold NotEnded at hne
    rw [hw] at hne
    exact hheld t f (h.held t f (hfires ▸ hf) hne)

/-- An event that drops no unit is received, or one that drops one. -/
theorem handleEvent_cases (s : Watch) (e : UnitEvent) :
    (s.handleEvent e = s ∧ ∀ u, e.drops u = false) ∨
      ∃ u, s.handleEvent e = s.ended u ∧ ∀ v, e.drops v = true ↔ v = u := by
  cases e with
  | stateChanged n a sub =>
    by_cases ha : a = .active
    · exact Or.inl ⟨by simp [handleEvent, ha], by simp [UnitEvent.drops, ha]⟩
    · exact Or.inr ⟨n, by simp [handleEvent, ha], by simp [UnitEvent.drops, ha, eq_comm]⟩
  | unitRemoved n => exact Or.inr ⟨n, rfl, by simp [UnitEvent.drops, eq_comm]⟩
  | unitNew n | jobNew id n k | jobRemoved id n o => exact Or.inl ⟨rfl, fun _ => rfl⟩

/-- **An event ends the watch of the unit that it drops.** -/
theorem sound_event {e : UnitEvent} (h : Sound s) (hflips : s.flips = [])
    (he : s.world.mgr.events[s.seen]? = some e) :
    Sound ({ s with seen := s.seen + 1 }.handleEvent e) := by
  obtain ⟨hlt, hget⟩ := List.getElem?_eq_some_iff.mp he
  have hdrop : s.world.mgr.events.drop s.seen = e :: s.world.mgr.events.drop (s.seen + 1) := by
    rw [List.drop_eq_getElem_cons hlt, hget]
  have hpending : ∀ u, s.DropPending u ↔ e.drops u = true ∨
      DropPending { s with seen := s.seen + 1 } u := by
    intro u
    unfold DropPending
    rw [hdrop]
    simp only [List.mem_cons, exists_eq_or_imp]
  -- nobody watches a unit that the event drops
  have hkeep : (∀ t f, s.Watched t f → e.drops f.target = false) →
      Sound { s with seen := s.seen + 1 } := by
    intro hno
    refine h.learn rfl rfl hlt ?_ ?_
    · intro t f _ hw
      refine ⟨hw.kind, ?_⟩
      obtain hflip | ⟨hentry, hup⟩ := hw.watch
      · exact Or.inl hflip
      · refine Or.inr ⟨hentry, hup.imp_right fun hpend => ?_⟩
        exact ((hpending _).mp hpend).resolve_left (by simp [hno t f hw])
    · intro t f hh
      exact ⟨hh.kind, hh.active, hh.running, hh.flips, hh.single,
        fun hpend => hh.fresh ((hpending _).mpr (Or.inr hpend))⟩
  obtain ⟨heq, hno⟩ | ⟨u, heq, hu⟩ := handleEvent_cases { s with seen := s.seen + 1 } e
  · rw [heq]
    exact hkeep fun t f _ => hno f.target
  rw [heq]
  unfold ended
  split
  next timer hentry =>
    refine h.learn rfl rfl hlt ?_ ?_
    · intro t f _ hw
      refine ⟨hw.kind, ?_⟩
      obtain hflip | ⟨hentry', hup⟩ := hw.watch
      · rw [hflips] at hflip
        exact absurd hflip (by simp)
      by_cases hn : f.target = u
      · subst hn
        obtain rfl := Option.some.inj (hentry'.symm.trans hentry)
        exact Or.inl List.mem_cons_self
      · refine Or.inr ⟨(IndexMap.get?_erase_ne hn _).trans hentry', hup.imp_right fun hpend => ?_⟩
        exact ((hpending _).mp hpend).resolve_left fun hdrops => hn ((hu _).mp hdrops)
    · intro t f hh
      refine ⟨hh.kind, hh.active, hh.running, ?_, ?_,
        fun hpend => hh.fresh ((hpending _).mpr (Or.inr hpend))⟩
      · -- the timer that is to flip watches the dropped unit, so it is not held
        intro hmem
        obtain rfl := List.mem_singleton.mp hmem
        exact hh.fresh ((hpending _).mpr (Or.inl ((hu _).mpr (hh.single u hentry).symm)))
      · intro v hv
        refine hh.single v ?_
        have hv' : (s.triggers.erase u).get? v = some t := hv
        by_cases hn : v = u
        · rw [hn, IndexMap.get?_erase_self] at hv'
          exact absurd hv' (by simp)
        · exact (IndexMap.get?_erase_ne hn _).symm.trans hv'
  next hnone =>
    refine hkeep fun t f hw => ?_
    by_contra hdrops
    obtain rfl := (hu _).mp (by simpa using hdrops)
    obtain hflip | ⟨hentry, -⟩ := hw.watch
    · rw [hflips] at hflip
      exact absurd hflip (by simp)
    · exact absurd (hentry.symm.trans hnone) (by simp)

theorem resync_triggers (s : Watch) (u : UnitName) :
    s.resync.triggers.get? u = if s.world.mgr.isActive u then s.triggers.get? u else none := by
  have hkeys : ∀ l : List (UnitName × UnitName), l.foldl (fun m e => m.erase e.1) s.triggers =
      (l.map Prod.fst).foldl IndexMap.erase s.triggers := by
    intro l
    rw [List.foldl_map]
  simp only [resync, hkeys, IndexMap.get?_foldl_erase]
  by_cases hactive : s.world.mgr.isActive u = true
  · rw [if_pos hactive, if_neg]
    intro hmem
    obtain ⟨e, he, rfl⟩ := List.mem_map.mp hmem
    have hgone := (List.mem_filter.mp he).2
    rw [hactive] at hgone
    exact absurd hgone (by simp)
  · rw [if_neg hactive]
    split
    · rfl
    · next hno =>
      by_contra hsome
      obtain ⟨t, ht⟩ := Option.ne_none_iff_exists'.mp hsome
      have hdown : (!s.world.mgr.isActive u) = true := by simpa using hactive
      exact hno (List.mem_map.mpr ⟨(u, t), List.mem_filter.mpr
        ⟨IndexMap.mem_entries.mpr ht, hdown⟩, rfl⟩)

theorem mem_resync_flips {t : UnitName} : t ∈ s.resync.flips ↔
    ∃ u, s.triggers.get? u = some t ∧ s.world.mgr.isActive u = false := by
  simp only [resync, List.mem_map, List.mem_filter]
  constructor
  · rintro ⟨⟨u, t'⟩, ⟨hmem, hdown⟩, rfl⟩
    exact ⟨u, IndexMap.mem_entries.mp hmem, by simpa using hdown⟩
  · rintro ⟨u, hu, hdown⟩
    exact ⟨(u, t), ⟨IndexMap.mem_entries.mpr hu, by simpa using hdown⟩, rfl⟩

/-- **After a lag the units themselves are asked.** -/
theorem sound_lag {n : Nat} (h : Sound s) (hflips : s.flips = []) (hl : s.world.lock = .free)
    (hn : s.seen + n ≤ s.world.mgr.events.length) :
    Sound ({ s with seen := s.seen + n }.resync) := by
  have hactive : ∀ u, s.world.ShownActive u ↔ s.world.mgr.isActive u = true :=
    fun u => World.shownActive_iff (World.reloading_of_free hl)
  have hfewer : ∀ u, DropPending { s with seen := s.seen + n } u → s.DropPending u := by
    rintro u ⟨e, hmem, hdrops⟩
    refine ⟨e, ?_, hdrops⟩
    have hmem' : e ∈ s.world.mgr.events.drop (s.seen + n) := hmem
    rw [← List.drop_drop] at hmem'
    exact List.mem_of_mem_drop hmem'
  have hentries := resync_triggers { s with seen := s.seen + n }
  refine h.learn rfl rfl hn ?_ ?_
  · intro t f _ hw
    refine ⟨hw.kind, ?_⟩
    obtain hflip | ⟨hentry, -⟩ := hw.watch
    · rw [hflips] at hflip
      exact absurd hflip (by simp)
    by_cases hup : s.world.mgr.isActive f.target = true
    · exact Or.inr ⟨(hentries _).trans ((if_pos hup).trans hentry), Or.inl ((hactive _).mpr hup)⟩
    · -- the event that said so may be among those that were lost
      exact Or.inl (mem_resync_flips.mpr ⟨f.target, hentry, by simpa using hup⟩)
  · intro t f hh
    refine ⟨hh.kind, hh.active, hh.running, ?_, ?_, fun hpend => hh.fresh (hfewer _ hpend)⟩
    · intro hmem
      obtain ⟨u, hu, hdown⟩ := mem_resync_flips.mp hmem
      obtain rfl := hh.single u hu
      have hdown' : s.world.mgr.isActive f.target = false := hdown
      rw [(hactive _).mp hh.active] at hdown'
      exact absurd hdown' (by simp)
    · intro u hu
      refine hh.single u ?_
      rw [hentries] at hu
      split at hu
      · exact hu
      · exact absurd hu (by simp)

/-- Units that are marked active, and events that drop none that was: the watch of the
others is as before. -/
theorem Watched.mono {new : List UnitEvent} {t : UnitName} {f : LastFire} (h : s.Watched t f)
    (hseen : s.seen ≤ s.world.mgr.events.length) (hs : s'.seen = s.seen)
    (he : s'.world.mgr.events = s.world.mgr.events ++ new)
    (hflips : t ∈ s.flips → t ∈ s'.flips)
    (hentry : s.triggers.get? f.target = some t → s'.triggers.get? f.target = some t)
    (hactive : s.world.ShownActive f.target → s'.world.ShownActive f.target) : s'.Watched t f := by
  refine ⟨h.kind, ?_⟩
  obtain hflip | ⟨hwatch, hup⟩ := h.watch
  · exact Or.inl (hflips hflip)
  · exact Or.inr ⟨hentry hwatch, hup.imp hactive
      fun hpend => (dropPending_of_append hseen hs he).mpr (Or.inl hpend)⟩

theorem Held.mono {new : List UnitEvent} {t : UnitName} {f : LastFire} (h : s.Held t f)
    (hseen : s.seen ≤ s.world.mgr.events.length) (hs : s'.seen = s.seen)
    (he : s'.world.mgr.events = s.world.mgr.events ++ new)
    (hnew : ∀ e ∈ new, e.drops f.target = false) (hshown : s'.world.shown t = s.world.shown t)
    (hflips : t ∈ s'.flips → t ∈ s.flips)
    (hentry : ∀ u, s'.triggers.get? u = some t → s.triggers.get? u = some t)
    (hactive : s.world.ShownActive f.target → s'.world.ShownActive f.target) : s'.Held t f := by
  exact ⟨h.kind, hactive h.active, hshown ▸ h.running, fun hmem => h.flips (hflips hmem),
    fun u hu => h.single u (hentry u hu), not_dropPending_of_append h.fresh hseen hs he hnew⟩

/-- **A flip ends what a timer shows**, if it is still active. -/
theorem sound_flip {timer : UnitName} (h : Sound s) (hmem : timer ∈ s.flips)
    (hl : s.world.lock = .free) : Sound (s.flipToWaiting timer) := by
  have hidle := World.reloading_of_free hl
  by_cases hup : s.world.mgr.isActive timer = true
  · obtain ⟨w', hw'⟩ : ∃ w' : World,
        w' = { s.world with mgr := s.world.mgr.markState timer .active .waiting } := ⟨_, rfl⟩
    have hflip : s.flipToWaiting timer =
        { s with flips := s.flips.erase timer, world := w' } := by
      simp only [flipToWaiting, if_pos hup, hw']
    have he : w'.mgr.events = s.world.mgr.events ++ [.stateChanged timer .active .waiting] := by
      rw [hw']
      rfl
    have hshown : ∀ u, w'.shown u = if u = timer then
        (s.world.shown u).map fun _ => (.active, .waiting) else s.world.shown u := by
      rw [hw']
      exact World.shown_mark hidle timer .active .waiting
    have hactive : ∀ u, s.world.ShownActive u → w'.ShownActive u := by
      rintro u ⟨sub, hsub⟩
      unfold World.ShownActive
      rw [hshown, hsub]
      split <;> exact ⟨_, rfl⟩
    have htidy : World.Tidy w' := by
      rw [hw']
      exact h.tidy.of_idle rfl h.tidy.services hidle
    have hlen : s.world.mgr.events.length ≤ w'.mgr.events.length := by
      rw [he, List.length_append]
      exact Nat.le_add_right _ _
    rw [hflip]
    refine ⟨htidy, h.seen.trans hlen, ?_, ?_, ?_⟩
    · intro t f hf
      obtain ⟨hk, hsent⟩ := h.fired t f hf
      exact ⟨hk, hsent.trans hlen⟩
    · intro t hk hrun
      have hrun' : w'.shown t = some (.active, .running) := hrun
      rw [hshown] at hrun'
      split at hrun'
      next =>
        obtain ⟨x, -, hx⟩ := Option.map_eq_some_iff.mp hrun'
        exact absurd hx (by simp)
      next hne =>
        obtain ⟨f, hf, hw⟩ := h.watched t hk hrun'
        exact ⟨f, hf, hw.mono h.seen rfl he (fun hm => (List.mem_erase_of_ne hne).mpr hm) id
          (hactive _)⟩
    · intro t f hf hne
      have hheld := h.held t f hf (hne.of_append (h.fired t f hf).2 he).1
      have ht : t ≠ timer := by
        rintro rfl
        exact hheld.flips hmem
      exact hheld.mono h.seen rfl he (by simp [UnitEvent.drops]) ((hshown t).trans (if_neg ht))
        List.mem_of_mem_erase (fun u hu => hu) (hactive _)
  · -- a timer that is not active shows no `running` that would need the flip
    have hflip : s.flipToWaiting timer = { s with flips := s.flips.erase timer } := by
      simp only [flipToWaiting, if_neg hup]
    rw [hflip]
    refine h.learn rfl rfl h.seen ?_ ?_
    · intro t f hrun hw
      refine hw.mono h.seen rfl (List.append_nil _).symm (fun hm => ?_) id id
      refine (List.mem_erase_of_ne ?_).mpr hm
      rintro rfl
      exact hup ((World.shownActive_iff hidle).mp ⟨_, hrun⟩)
    · intro t f hh
      exact hh.mono h.seen rfl (List.append_nil _).symm (by simp) rfl List.mem_of_mem_erase
        (fun u hu => hu) id

/-- **A fire**: what the timer shows fits what it fired, and the other timers are watched as
before. -/
theorem Sound.fire_of {new : List UnitEvent} {timer : UnitName} {f₀ : LastFire} (h : Sound s)
    (hk : timer.kind = .timer) (htidy : World.Tidy s'.world) (hseen : s'.seen = s.seen)
    (hflips : s'.flips = s.flips) (he : s'.world.mgr.events = s.world.mgr.events ++ new)
    (hfires : s'.fires = s.fires.insert timer f₀) (hsent : f₀.sent ≤ s'.world.mgr.events.length)
    (hactive : ∀ u, s.world.ShownActive u → s'.world.ShownActive u)
    (hwatched : s'.world.shown timer = some (.active, .running) → s'.Watched timer f₀)
    (hheld : s'.NotEnded f₀ → s'.Held timer f₀)
    (hrunning : ∀ t, t ≠ timer → t.kind = .timer → s'.world.shown t = some (.active, .running) →
      s.world.shown t = some (.active, .running))
    (hentry : ∀ t u, t ≠ timer → s.world.ShownActive t → s.triggers.get? u = some t →
      s'.triggers.get? u = some t)
    (hothers : ∀ t f, t ≠ timer → s.fires.get? t = some f → s.NotEnded f → s.Held t f →
      (∀ e ∈ new, e.drops f.target = false) ∧ s'.world.shown t = s.world.shown t ∧
        ∀ u, s'.triggers.get? u = some t → s.triggers.get? u = some t) : Sound s' := by
  have hlen : s.world.mgr.events.length ≤ s'.world.mgr.events.length := by
    rw [he, List.length_append]
    exact Nat.le_add_right _ _
  have hself : s'.fires.get? timer = some f₀ := by rw [hfires, IndexMap.get?_insert_self]
  have hother : ∀ {t}, t ≠ timer → s'.fires.get? t = s.fires.get? t := by
    intro t ht
    rw [hfires, IndexMap.get?_insert_ne ht]
  refine ⟨htidy, hseen ▸ h.seen.trans hlen, ?_, ?_, ?_⟩
  · intro t f hf
    by_cases ht : t = timer
    · obtain rfl := Option.some.inj ((ht ▸ hf).symm.trans hself)
      exact ⟨ht ▸ hk, hsent⟩
    · obtain ⟨hkind, hle⟩ := h.fired t f ((hother ht).symm.trans hf)
      exact ⟨hkind, hle.trans hlen⟩
  · intro t hkind hrun
    by_cases ht : t = timer
    · subst ht
      exact ⟨f₀, hself, hwatched hrun⟩
    · have hbefore := hrunning t ht hkind hrun
      obtain ⟨f, hf, hw⟩ := h.watched t hkind hbefore
      exact ⟨f, (hother ht).trans hf, hw.mono h.seen hseen he (hflips ▸ id)
        (hentry t f.target ht ⟨_, hbefore⟩) (hactive _)⟩
  · intro t f hf hne
    by_cases ht : t = timer
    · subst ht
      obtain rfl := Option.some.inj (hf.symm.trans hself)
      exact hheld hne
    · have hf' := (hother ht).symm.trans hf
      obtain ⟨hbefore, -⟩ := hne.of_append (h.fired t f hf').2 he
      have hold := h.held t f hf' hbefore
      obtain ⟨hnew, hshown, hback⟩ := hothers t f ht hf' hbefore hold
      exact hold.mono h.seen hseen he hnew hshown (hflips ▸ id) hback (hactive _)

theorem tidy_fire {timer target : UnitName} (h : Sound s) (hk : timer.kind = .timer)
    (hl : s.world.lock = .free) : World.Tidy (s.fire timer target).world := by
  have hs : s.world.call (.other (.fire timer target)) = some (s.world.fire timer target) := by
    simp only [World.call, World.step, World.ifFree, if_pos hk, if_pos hl]
  exact World.tidy_call h.tidy hs

/-- A fire of a unit without a status leaves the timer waiting, and the others as they
are. -/
theorem sound_fire_unloaded {timer target : UnitName} (h : Sound s) (hk : timer.kind = .timer)
    (hl : s.world.lock = .free) (hno : s.world.mgr.status.get? target = none) :
    Sound (s.fire timer target) := by
  obtain ⟨hdown, hstatus, new, he, hnew⟩ := World.fire_unloaded timer hno
  have hidle := World.reloading_of_free hl
  have hidle' := World.reloading_of_free ((World.fire_lock s.world timer target).trans hl)
  have htimer : (s.world.fire timer target).shown timer =
      (s.world.shown timer).map fun _ => (.active, .waiting) :=
    World.shown_marked hidle hidle' (fun _ => rfl) ((hstatus timer).trans (if_pos rfl))
  have hother : ∀ {u}, u ≠ timer → (s.world.fire timer target).shown u = s.world.shown u := by
    intro u hu
    rw [World.shown_of_idle hidle, World.shown_of_idle hidle', hstatus, if_neg hu]
  have htriggers : (s.fire timer target).triggers = s.triggers := by
    simp only [fire, hdown]
    rfl
  refine h.fire_of hk (tidy_fire h hk hl) rfl rfl he rfl le_rfl ?_ ?_ ?_ ?_ ?_ ?_
  · rintro u ⟨sub, hsub⟩
    by_cases hu : u = timer
    · subst hu
      exact ⟨.waiting, by rw [fire, htimer, hsub]; rfl⟩
    · exact ⟨sub, (hother hu).trans hsub⟩
  · intro hrun
    rw [fire, htimer] at hrun
    obtain ⟨x, -, hx⟩ := Option.map_eq_some_iff.mp hrun
    exact absurd hx (by simp)
  · rintro ⟨hbrought, -⟩
    -- the unit has no status after the fire either
    have hno' : (s.world.fire timer target).mgr.status.get? target = none := by
      rw [hstatus, hno, Option.map_none, ite_self]
    simp [Manager.isUp, hno'] at hbrought
  · intro t ht _ hrun
    exact (hother ht).symm.trans hrun
  · intro t u _ _ hu
    rw [htriggers]
    exact hu
  · intro t f ht hf hne hheld
    refine ⟨fun e hmem => hnew e hmem f.target ?_, hother ht, fun u hu => htriggers ▸ hu⟩
    intro htarget
    obtain ⟨sub, hsub⟩ := hheld.active
    rw [World.shown_of_idle hidle, htarget, hno] at hsub
    exact absurd hsub (by simp)

/-- **A fire of a loaded unit** that is no service, and that no other active timer is
watching. -/
theorem sound_fire_plain {timer target : UnitName} (h : Sound s) (hk : timer.kind = .timer)
    (hflips : s.flips = []) (hl : s.world.lock = .free) (hok : s.Fireable timer target)
    (hloaded : (s.world.mgr.status.get? target).isSome = true) : Sound (s.fire timer target) := by
  obtain ⟨hup, hstatus, new, he, hnew⟩ := World.fire_plain timer hok.plain hok.other hloaded
  have hidle := World.reloading_of_free hl
  have hidle' := World.reloading_of_free ((World.fire_lock s.world timer target).trans hl)
  have htimer : (s.world.fire timer target).shown timer =
      (s.world.shown timer).map fun _ => (.active, .running) :=
    World.shown_marked hidle hidle' (fun _ => rfl) ((hstatus timer).trans (if_pos rfl))
  have htarget : (s.world.fire timer target).shown target =
      (s.world.shown target).map fun _ => (.active, Manager.startedSub target.kind) :=
    World.shown_marked hidle hidle' (fun _ => rfl)
      ((hstatus target).trans ((if_neg hok.other).trans (if_pos rfl)))
  have hother : ∀ {u}, u ≠ timer → u ≠ target →
      (s.world.fire timer target).shown u = s.world.shown u := by
    intro u hu hu'
    rw [World.shown_of_idle hidle, World.shown_of_idle hidle', hstatus, if_neg hu, if_neg hu']
  have htriggers : (s.fire timer target).triggers = s.triggers.insert target timer := by
    simp only [fire, hup]
    rfl
  have hactive : (s.world.fire timer target).ShownActive target := by
    obtain ⟨st, hst⟩ := Option.isSome_iff_exists.mp hloaded
    refine ⟨Manager.startedSub target.kind, ?_⟩
    rw [htarget, World.shown_of_idle hidle, hst]
    rfl
  have hfresh : ¬ (s.fire timer target).DropPending target := by
    refine not_dropPending_of_append ?_ h.seen rfl he fun e hmem => hnew e hmem target
    rintro ⟨e, hmem, hdrops⟩
    rw [hok.fresh e hmem] at hdrops
    exact absurd hdrops (by simp)
  refine h.fire_of hk (tidy_fire h hk hl) rfl rfl he rfl le_rfl ?_ ?_ ?_ ?_ ?_ ?_
  · rintro u ⟨sub, hsub⟩
    by_cases hu : u = timer
    · subst hu
      exact ⟨.running, by rw [fire, htimer, hsub]; rfl⟩
    by_cases hu' : u = target
    · exact hu' ▸ hactive
    · exact ⟨sub, (hother hu hu').trans hsub⟩
  · intro _
    exact ⟨hok.plain, Or.inr ⟨by rw [htriggers, IndexMap.get?_insert_self], Or.inl hactive⟩⟩
  · intro _
    refine ⟨hok.plain, hactive, ?_, ?_, ?_, hfresh⟩
    · intro sub hsub
      rw [fire, htimer] at hsub
      obtain ⟨x, -, hx⟩ := Option.map_eq_some_iff.mp hsub
      exact (Prod.mk.inj hx).2.symm
    · show timer ∉ s.flips
      rw [hflips]
      exact List.not_mem_nil
    · intro u hu
      rw [htriggers] at hu
      by_cases hu' : u = target
      · exact hu'
      · exact hok.single u ((IndexMap.get?_insert_ne hu' _ _).symm.trans hu)
  · intro t ht hkind hrun
    by_cases ht' : t = target
    · subst ht'
      rw [fire, htarget] at hrun
      obtain ⟨x, -, hx⟩ := Option.map_eq_some_iff.mp hrun
      rw [hkind] at hx
      exact absurd hx (by simp [Manager.startedSub])
    · exact (hother ht ht').symm.trans hrun
  · intro t u ht hshown hu
    rw [htriggers]
    by_cases hu' : u = target
    · -- the fire would take the watch over from an active timer
      subst hu'
      have hdown := hok.alone t hu ht
      rw [(World.shownActive_iff hidle).mp hshown] at hdown
      exact absurd hdown (by simp)
    · exact (IndexMap.get?_insert_ne hu' _ _).trans hu
  · intro t f ht hf hne hheld
    refine ⟨fun e hmem => hnew e hmem f.target, ?_, ?_⟩
    · by_cases ht' : t = target
      · -- a timer whose own unit is up is not started
        subst ht'
        refine absurd (hheld.holds hidle hf hne ?_) hok.free
        obtain ⟨st, hst⟩ := Option.isSome_iff_exists.mp hloaded
        rw [World.shown_of_idle hidle, hst]
        simp
      · exact hother ht ht'
    · intro u hu
      rw [htriggers] at hu
      by_cases hu' : u = target
      · rw [hu', IndexMap.get?_insert_self] at hu
        exact absurd (Option.some.inj hu).symm ht
      · exact (IndexMap.get?_insert_ne hu' _ _).symm.trans hu

/-- Others do not fire timers. -/
theorem step_call {c : Call} (hs : s.step (.call c) = some s') :
    (∀ timer target, c ≠ .other (.fire timer target)) ∧
      ∃ w', s.world.call c = some w' ∧ s' = { s with world := w' } := by
  have hmap : ∀ r : Option World, (r.map fun w => { s with world := w }) = some s' →
      ∃ w', r = some w' ∧ s' = { s with world := w' } := by
    intro r hr
    obtain ⟨w', hw, rfl⟩ := Option.map_eq_some_iff.mp hr
    exact ⟨w', hw, rfl⟩
  cases c with
  | insertLoaded n lu | daemonReload paths => exact ⟨by simp, hmap _ hs⟩
  | other l =>
    cases l with
    | fire timer target => exact absurd hs (by simp [step])
    | _ => exact ⟨by simp, hmap _ hs⟩

theorem sound_step {l : WatchStep} (h : Sound s) (hok : s.Watchable l) (hs : s.step l = some s') :
    Sound s' := by
  cases l with
  | call c =>
    obtain ⟨hfire, w', hw, rfl⟩ := step_call hs
    exact sound_call h hw hfire hok
  | fire timer target =>
    simp only [step] at hs
    split at hs
    next hcond =>
      obtain ⟨hk, hflips, hl⟩ := hcond
      obtain rfl := Option.some.inj hs
      cases hst : s.world.mgr.status.get? target with
      | none => exact sound_fire_unloaded h hk hl hst
      | some st =>
        obtain hno | hok := hok
        · exact absurd (hst.symm.trans hno) (by simp)
        · exact sound_fire_plain h hk hflips hl hok (by rw [hst]; rfl)
    next => exact absurd hs (by simp)
  | event =>
    simp only [step] at hs
    split at hs
    next hflips =>
      obtain ⟨e, he, rfl⟩ := Option.map_eq_some_iff.mp hs
      exact sound_event h hflips he
    next => exact absurd hs (by simp)
  | lag n =>
    simp only [step] at hs
    split at hs
    next hcond =>
      obtain ⟨hflips, hl, hn⟩ := hcond
      obtain rfl := Option.some.inj hs
      exact sound_lag h hflips hl hn
    next => exact absurd hs (by simp)
  | flip timer =>
    simp only [step] at hs
    split at hs
    next hcond =>
      obtain rfl := Option.some.inj hs
      exact sound_flip h hcond.1 hcond.2
    next => exact absurd hs (by simp)

/-- Before the scheduler is there no timer is running: a start leaves it waiting. -/
theorem sound_start {b : Bool} {cs : List Call} {w : World}
    (hcs : ∀ c ∈ cs, ∀ timer target, c ≠ .other (.fire timer target))
    (hrun : runs World.call (World.newManager b) cs = some w) : Sound (start w) := by
  have hinv : World.Tidy w ∧ ∀ t, t.kind = .timer → w.shown t ≠ some (.active, .running) := by
    refine runs_inv (P := fun w => World.Tidy w ∧ ∀ t, t.kind = .timer →
      w.shown t ≠ some (.active, .running)) ?_ ?_ (Along.of_labels hcs) hrun
    · rintro w c w' ⟨htidy, hwaits⟩ hfire hs
      refine ⟨World.tidy_call htidy hs, fun t hk hshown => ?_⟩
      obtain ⟨new, -, hfollows⟩ := World.follows_call htidy (kind_of_timer hk) hs hfire
      obtain hbefore | ⟨-, hsub, -⟩ := hfollows.comes _ hshown
      · exact hwaits t hk hbefore
      · rw [hk] at hsub
        exact absurd hsub (by simp [Manager.startedSub])
    · refine ⟨World.tidy_newManager b, fun t _ hshown => ?_⟩
      rw [World.shown_of_idle rfl] at hshown
      exact absurd hshown (by simp [World.newManager])
  obtain ⟨htidy, hwaits⟩ := hinv
  refine ⟨htidy, le_rfl, ?_, fun t hk hshown => absurd hshown (hwaits t hk), ?_⟩
  · intro t f hf
    exact absurd hf (by simp [start])
  · intro t f hf
    exact absurd hf (by simp [start])

/-- **What a sound watch shows** once all events are dealt with. -/
theorem Sound.timersShow (h : Sound s) (hset : s.Settled) : s.TimersShow := by
  have hshown := World.shown_of_idle hset.idle
  refine ⟨?_, ?_⟩
  · intro t st hk hst hactive hsub
    have hrun : s.world.shown t = some (.active, .running) := by
      rw [hshown, hst, ← hactive, ← hsub]
      rfl
    obtain ⟨f, hf, -, hflip | ⟨-, ⟨sub, hup⟩ | ⟨e, hmem, -⟩⟩⟩ := h.watched t hk hrun
    · rw [hset.flips] at hflip
      exact absurd hflip (by simp)
    · rw [hshown] at hup
      obtain ⟨target, htarget, heq⟩ := Option.map_eq_some_iff.mp hup
      have hstate : target.active = .active := (Prod.mk.inj heq).1
      exact ⟨f, target, hf, htarget, by simp [hstate], by simp [hstate]⟩
    · rw [hset.seen, List.drop_length] at hmem
      exact absurd hmem (by simp)
  · intro t st f hf hup hst hactive
    refine (h.held t f hf hup.1).running st.sub ?_
    rw [hshown, hst, ← hactive]
    rfl

end Watch

/-- **The timers show whether their targets are up**, in every run whose steps the watch is
right about. -/
theorem timers_show {b : Bool} {cs : List Call} {w : World} {steps : List WatchStep} {s : Watch}
    (hcs : ∀ c ∈ cs, ∀ timer target, c ≠ .other (.fire timer target))
    (hstart : runs World.call (World.newManager b) cs = some w)
    (hok : Along Watch.step Watch.Watchable (.start w) steps)
    (hrun : runs Watch.step (.start w) steps = some s) (hset : s.Settled) : s.TimersShow :=
  (runs_inv (fun _ _ _ h hok hs => Watch.sound_step h hok hs) (Watch.sound_start hcs hstart) hok
    hrun).timersShow hset

/-! ## A service is not watched -/

def eggTimer : UnitName := .plain "t".toList .timer

/-- A unit of the timer's name that is no service. -/
def eggTarget : UnitName := .plain "t".toList .target

/-- The timer and another unit are put in, and the timer is started. -/
def timerUp (target : UnitName) : List Call :=
  [.insertLoaded eggTimer ⟨.empty eggTimer, fits_empty eggTimer⟩,
    .insertLoaded target ⟨.empty target, fits_empty target⟩, .other (.startUnit eggTimer)]

/-- The timer fires, and the scheduler receives what that sends. -/
def fired (target : UnitName) : List WatchStep :=
  [.fire eggTimer target, .event, .event, .event, .event]

/-- The unit is stopped, and the timer flips back. -/
def firedAndStopped : List WatchStep :=
  fired eggTarget ++ [.call (.other (.stopUnit eggTarget)), .event, .event, .flip eggTimer, .event,
    .event]

theorem timerUp_fires_none (target : UnitName) :
    ∀ c ∈ timerUp target, ∀ timer n, c ≠ .other (.fire timer n) := by
  simp [timerUp]

theorem timers_show_stopped : ∃ w s,
    runs World.call (World.newManager true) (timerUp eggTarget) = some w ∧
      runs Watch.step (.start w) firedAndStopped = some s ∧ s.Settled ∧ s.TimersShow := by
  have hset : ∃ w s, runs World.call (World.newManager true) (timerUp eggTarget) = some w ∧
      runs Watch.step (.start w) firedAndStopped = some s ∧ s.Settled :=
    ⟨_, _, rfl, rfl, by decide, by decide, rfl⟩
  obtain ⟨w, s, hw, hs, hset⟩ := hset
  refine ⟨w, s, hw, hs, hset, timers_show (timerUp_fires_none eggTarget) hw ?_ hs hset⟩
  have hfire : Watch.Fireable (.start w) eggTimer eggTarget := by
    refine ⟨by decide, by decide, ?_, ?_, ?_, ?_⟩
    · rintro ⟨-, f, hf, -⟩
      exact absurd hf (by simp [Watch.start])
    · intro t ht
      exact absurd ht (by simp [Watch.start])
    · intro u hu
      exact absurd hu (by simp [Watch.start])
    · intro e he
      exact absurd he (by simp [Watch.start])
  -- the steps after the fire can be taken anywhere
  refine ⟨Or.inr hfire, fun s₁ _ => (Along.of_labels (p := fun l => ∀ s, Watch.Watchable s l)
    fun l hl s => ?_).imp fun s _ h => h s⟩
  simp only [List.append_eq, List.nil_append, List.cons_append, List.mem_cons, List.not_mem_nil,
    or_false] at hl
  obtain rfl | rfl | rfl | rfl | rfl | rfl | rfl | rfl | rfl | rfl := hl
  case inr.inr.inr.inr.inl =>
    rintro n ⟨id, kind, hcall, hstarts⟩
    obtain ⟨rfl, -⟩ := Prod.mk.inj (Option.some.inj hcall)
    exact absurd hstarts (by simp [TaskKind.starts])
  all_goals trivial

/-- The service is activating because of the timer, which shows `waiting`. -/
theorem not_timers_show : ¬ ∀ (b : Bool) (cs : List Call) (w : World) (steps : List WatchStep)
    (s : Watch), (∀ c ∈ cs, ∀ timer target, c ≠ .other (.fire timer target)) →
    runs World.call (World.newManager b) cs = some w → runs Watch.step (.start w) steps = some s →
    s.Settled → s.TimersShow := by
  intro h
  obtain ⟨w, s, hw, hs, hset, hfire, ⟨st, hst, hactive, hsub⟩, hup⟩ : ∃ w s,
      runs World.call (World.newManager true) (timerUp serviceName) = some w ∧
      runs Watch.step (.start w) (fired serviceName) = some s ∧ s.Settled ∧
      s.fires.get? eggTimer = some ⟨serviceName, true, s.world.mgr.events.length⟩ ∧
      (∃ st, s.world.mgr.status.get? eggTimer = some st ∧ st.active = .active ∧ st.sub = .waiting) ∧
      s.world.mgr.isUp serviceName = true :=
    ⟨_, _, rfl, rfl, ⟨by decide, by decide, rfl⟩, by decide, ⟨_, rfl, by decide, by decide⟩,
      by decide⟩
  have hshow := h true _ w _ s (timerUp_fires_none serviceName) hw hs hset
  have hne : s.NotEnded ⟨serviceName, true, s.world.mgr.events.length⟩ :=
    ⟨rfl, by simp⟩
  have hrun := hshow.up eggTimer st _ hfire ⟨hne, hup⟩ hst hactive
  exact absurd (hsub.symm.trans hrun) (by simp)

end Systeml.Runtime
