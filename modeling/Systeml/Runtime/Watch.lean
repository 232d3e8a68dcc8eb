import Systeml.Runtime.Scheduler
import Systeml.Runtime.Told

/-!
# What timers show

The scheduler beside the manager and its tasks. It receives the events in their order,
but later than they were sent, and in between others go on. A timer whose linked unit is
active after a fire shows `running` until the scheduler learns that the unit is not
active any more.

The watch is kept by the unit, and the unit is asked once, right after the fire. So a
service, which is only activating then, is not watched; one unit that two timers fire
is watched for the last of them; and an event that was sent before the fire ends the
watch as well.
-/

namespace Systeml.Runtime

open Systeml.Lib Systeml.Unit Systeml.Deps

/-- The unit is active or on the way there. -/
def Manager.isUp (m : Manager) (name : UnitName) : Bool :=
  match m.status.get? name with
  | some st => st.active = .active || st.active = .activating
  | none => false

/-- What a timer last triggered. -/
structure LastFire where
  target : UnitName
  /-- The start succeeded, and the unit is up after it. -/
  brought : Bool
  /-- How many events were sent by then. -/
  sent : Nat
  deriving DecidableEq

/-- The manager with its tasks, and the scheduler. -/
structure Watch where
  world : World
  /-- Trigger unit to the timer that fired it. -/
  triggers : IndexMap UnitName UnitName := .empty
  /-- How many of the events the scheduler has received. -/
  seen : Nat
  /-- Timers to flip back to waiting. -/
  flips : List UnitName := []
  /-- What the timers last triggered; the code does not keep it. -/
  fires : IndexMap UnitName LastFire := .empty

/-- A step of the scheduler, or a call or a step of others. -/
inductive WatchStep where
  | call (c : Call)
  | fire (timer target : UnitName)
  /-- The next event is received. -/
  | event
  /-- The next `n` events are lost, and the scheduler is told so. -/
  | lag (n : Nat)
  | flip (timer : UnitName)

namespace Watch

variable (s : Watch)

/-- `fire`, under the lock. -/
def fire (timer target : UnitName) : Watch :=
  let m := s.world.mgr.markState timer .active .running
  let started := (m.startUnit target).mgr
  let w := s.world.fire timer target
  { s with
    world := w
    triggers := if started.isActive target then s.triggers.insert target timer else s.triggers
    fires := s.fires.insert timer
      ⟨target, (m.startUnit target).result.isOk && w.mgr.isUp target, w.mgr.events.length⟩ }

/-- The unit is not active any more, or gone: its timer is to flip. -/
def ended (unit : UnitName) : Watch :=
  match s.triggers.get? unit with
  | some timer => { s with triggers := s.triggers.erase unit, flips := [timer] }
  | none => s

/-- `handle_event`, up to the flips. -/
def handleEvent : UnitEvent → Watch
  | .stateChanged unit state _ => if state = .active then s else s.ended unit
  | .unitRemoved unit => s.ended unit
  | _ => s

/-- `handle_event` after a lag, up to the flips. -/
def resync : Watch :=
  let gone := s.triggers.entries.filter fun e => !s.world.mgr.isActive e.1
  { s with
    triggers := gone.foldl (fun m e => m.erase e.1) s.triggers
    flips := gone.map Prod.snd }

/-- `flip_to_waiting`. The flips after a lag are made in any order. -/
def flipToWaiting (timer : UnitName) : Watch :=
  let s := { s with flips := s.flips.erase timer }
  if s.world.mgr.isActive timer then
    { s with world := { s.world with mgr := s.world.mgr.markState timer .active .waiting } }
  else s

/-- One step, if it can be taken: while timers are to flip the scheduler does nothing
else, and only receiving an event needs no lock. -/
def step : WatchStep → Option Watch
  | .call (.other (.fire _ _)) => none
  | .call c => (s.world.call c).map fun w => { s with world := w }
  | .fire timer target =>
    if timer.kind = .timer ∧ s.flips = [] ∧ s.world.lock = .free then some (s.fire timer target)
    else none
  | .event =>
    if s.flips = [] then
      (s.world.mgr.events[s.seen]?).map fun e => { s with seen := s.seen + 1 }.handleEvent e
    else none
  | .lag n =>
    if s.flips = [] ∧ s.world.lock = .free ∧ s.seen + n ≤ s.world.mgr.events.length then
      some { s with seen := s.seen + n }.resync
    else none
  | .flip timer =>
    if timer ∈ s.flips ∧ s.world.lock = .free then some (s.flipToWaiting timer) else none

/-- The scheduler subscribes to the events. -/
def start (w : World) : Watch := { world := w, seen := w.mgr.events.length }

/-- The scheduler has dealt with all events, and no reload is under way. -/
structure Settled : Prop where
  seen : s.seen = s.world.mgr.events.length
  flips : s.flips = []
  idle : s.world.reloading = none

end Watch

/-- The event tells that the unit is neither active nor on the way there. -/
def UnitEvent.ends (u : UnitName) : UnitEvent → Bool
  | .stateChanged n a _ => n = u && a ≠ .active && a ≠ .activating
  | .unitRemoved n => n = u
  | _ => false

namespace Watch

variable (s : Watch)

/-- Since the fire the unit was up, as far as the events tell. -/
def NotEnded (f : LastFire) : Prop :=
  f.brought = true ∧ ∀ e ∈ s.world.mgr.events.drop f.sent, e.ends f.target = false

/-- The unit is active or activating because of the fire. -/
def UpSince (f : LastFire) : Prop := s.NotEnded f ∧ s.world.mgr.isUp f.target = true

/-- **A timer shows `running` only while its target is up**, and while it is up because of
the timer. -/
structure TimersShow : Prop where
  running : ∀ t st, t.kind = .timer → s.world.mgr.status.get? t = some st → st.active = .active →
    st.sub = .running → ∃ f target, s.fires.get? t = some f ∧
      s.world.mgr.status.get? f.target = some target ∧
      target.active ≠ .inactive ∧ target.active ≠ .failed
  up : ∀ t st f, s.fires.get? t = some f → s.UpSince f → s.world.mgr.status.get? t = some st →
    st.active = .active → st.sub = .running

/-- The timer is loaded, and the unit that it last fired is up because of it. -/
def Holds (t : UnitName) : Prop :=
  (s.world.mgr.status.get? t).isSome = true ∧ ∃ f, s.fires.get? t = some f ∧ s.UpSince f

/-- A fire of a loaded unit that the watch is right about. -/
structure Fireable (timer target : UnitName) : Prop where
  plain : target.kind ≠ .service
  other : target ≠ timer
  free : ¬ s.Holds target
  /-- No other active timer is watching the unit, -/
  alone : ∀ t, s.triggers.get? target = some t → t ≠ timer → s.world.mgr.isActive t = false
  /-- and the timer no other unit. -/
  single : ∀ u, s.triggers.get? u = some timer → u = target
  /-- No event that was sent before says that the unit is not active. -/
  fresh : ∀ e ∈ s.world.mgr.events.drop s.seen, e.drops target = false

/-- The steps that the watch is right about. -/
def Watchable : WatchStep → Prop
  | .call (.insertLoaded n _) =>
    ∀ t f, s.fires.get? t = some f → f.target = n → s.world.mgr.isActive n = false
  | .call (.other l) => ∀ n, l.asks TaskKind.starts n → ¬ s.Holds n
  | .fire timer target => s.world.mgr.status.get? target = none ∨ s.Fireable timer target
  | _ => True

end Watch

/-! ## The scheduler's own steps -/

/-- The timers that a scheduler is to flip. -/
def Phase.flips : Phase → List UnitName
  | .flipping timers => timers
  | _ => []

/-- What the event channel yields for an event. -/
def UnitEvent.received : UnitEvent → Received
  | .stateChanged n a _ => .stateChanged n a
  | .unitRemoved n => .unitRemoved n
  | _ => .other

namespace Watch

variable {s s' : Watch} {S : TimerScheduler}

/-- The scheduler sees the manager, and watches the units. -/
structure Mirrors (S : TimerScheduler) (s : Watch) : Prop where
  mgr : S.mgr = s.world.mgr
  triggers : S.triggers = s.triggers
  flips : S.phase.flips = s.flips

theorem startUnit_mgr (w : World) (n : UnitName) :
    (w.startUnit n).mgr = (w.mgr.startUnit n).mgr := by
  simp only [World.startUnit]
  split
  · exact World.spawnTask_mgr _ _ _ _
  · rfl

theorem scheduler_startUnit (S : TimerScheduler) (n : UnitName) (saved : Bool) :
    (S.startUnit n saved).mgr = (S.mgr.startUnit n).mgr ∧
      (S.startUnit n saved).triggers = S.triggers ∧ (S.startUnit n saved).phase = S.phase := by
  unfold TimerScheduler.startUnit TimerScheduler.stampIfNeeded TimerScheduler.writeLastFire
  simp only
  split
  · split
    · split
      · split <;> exact ⟨rfl, rfl, rfl⟩
      · exact ⟨rfl, rfl, rfl⟩
    · exact ⟨rfl, rfl, rfl⟩
  · exact ⟨rfl, rfl, rfl⟩

/-- What a fire does to the manager. -/
theorem fire_mgr (w : World) (timer target : UnitName) {m : Manager}
    (hm : ((w.mgr.markState timer .active .running).startUnit target).mgr = m) :
    (w.fire timer target).mgr =
      if m.isActive target then m else m.markState timer .active .waiting := by
  have hstart : ({ w with mgr := w.mgr.markState timer .active .running }.startUnit target).mgr =
      m := (startUnit_mgr _ target).trans hm
  simp only [World.fire, hstart]
  split
  · exact hstart
  · rfl

/-- **The steps are those of the scheduler**: a fire, -/
theorem mirrors_fire (h : Mirrors S s) (timer target : UnitName) (x : DateTime) (saved : Bool) :
    Mirrors (S.fire timer x target saved) (s.fire timer target) := by
  obtain ⟨hm, ht, hf⟩ := h
  obtain ⟨hm', ht', hp'⟩ := scheduler_startUnit
    { S with mgr := S.mgr.markState timer .active .running } target saved
  have hstarted : ((s.world.mgr.markState timer .active .running).startUnit target).mgr =
      ({ S with mgr := S.mgr.markState timer .active .running }.startUnit target saved).mgr := by
    rw [hm', hm]
  have hworld := fire_mgr s.world timer target hstarted
  -- the part under the lock
  have hwatch : Mirrors (({ S with mgr := S.mgr.markState timer .active .running }.startUnit target
      saved).watch timer target) (s.fire timer target) := by
    have htriggers : (s.fire timer target).triggers =
        if ({ S with mgr := S.mgr.markState timer .active .running }.startUnit target
          saved).mgr.isActive target then s.triggers.insert target timer else s.triggers := by
      rw [← hstarted]
      rfl
    unfold TimerScheduler.watch
    split
    next hactive =>
      rw [if_pos hactive] at hworld htriggers
      exact ⟨hworld.symm, by rw [htriggers, ht', ht], by rw [hp']; exact hf⟩
    next hactive =>
      rw [if_neg hactive] at hworld htriggers
      exact ⟨hworld.symm, by rw [htriggers, ht', ht], by rw [hp']; exact hf⟩
  unfold TimerScheduler.fire
  simp only
  split
  · unfold TimerScheduler.writeLastFire
    split <;> exact ⟨hwatch.mgr, hwatch.triggers, hwatch.flips⟩
  · exact hwatch

/-- an event, -/
theorem mirrors_event (h : Mirrors S s) (hnone : s.flips = []) (e : UnitEvent) :
    Mirrors (S.handleEvent e.received) (s.handleEvent e) := by
  obtain ⟨hm, ht, hf⟩ := h
  have hkeep : Mirrors { S with phase := .ready } s := ⟨hm, ht, hnone.symm⟩
  have hdrop : ∀ unit, Mirrors (match S.triggers.get? unit with
      | some timer => { S with triggers := S.triggers.erase unit, phase := .flipping [timer] }
      | none => { S with phase := .ready }) (s.ended unit) := by
    intro unit
    unfold ended
    rw [← ht]
    split
    · exact ⟨hm, rfl, rfl⟩
    · exact hkeep
  cases e with
  | stateChanged n a sub =>
    simp only [TimerScheduler.handleEvent, UnitEvent.received, handleEvent]
    split
    · exact hkeep
    · exact hdrop n
  | unitRemoved n => exact hdrop n
  | unitNew n | jobNew id n k | jobRemoved id n o => exact hkeep

/-- a lag, -/
theorem mirrors_resync (h : Mirrors S s) : Mirrors (S.handleEvent .lagged) s.resync := by
  obtain ⟨hm, ht, hf⟩ := h
  refine ⟨hm, ?_, ?_⟩
  · simp only [TimerScheduler.handleEvent, resync, hm, ht]
  · simp only [TimerScheduler.handleEvent, resync, hm, ht, Phase.flips]

/-- and a flip. -/
theorem mirrors_flip {timer : UnitName} {rest : List UnitName} (h : Mirrors S s)
    (hp : S.phase = .flipping (timer :: rest)) :
    Mirrors { S.flipToWaiting timer with phase := .flipping rest } (s.flipToWaiting timer) := by
  obtain ⟨hm, ht, hf⟩ := h
  have hrest : s.flips.erase timer = rest := by
    rw [← hf, hp]
    exact List.erase_cons_head timer rest
  unfold TimerScheduler.flipToWaiting flipToWaiting
  simp only [hm]
  split
  · exact ⟨by rw [← hm], ht, hrest.symm⟩
  · exact ⟨hm, ht, hrest.symm⟩

end Watch

/-! ## What a fire does -/

namespace World

variable {w : World} {timer target u : UnitName}

/-- A unit that is no service is marked and announced under the lock. -/
theorem startUnit_plain (m : Manager) (hk : target.kind ≠ .service) :
    (m.startUnit target).result = .ok none ∧
      (∃ new, (m.startUnit target).mgr.events = m.events ++ new ∧
        ∀ e ∈ new, ∀ v, e.drops v = false) ∧
      ∀ u, (m.startUnit target).mgr.status.get? u = if u = target then (m.status.get? u).map
        fun st => { st with active := .active, sub := Manager.startedSub target.kind }
        else m.status.get? u := by
  simp only [Manager.startUnit, if_neg hk]
  refine ⟨trivial, ⟨[.jobNew m.allocJobId.1 target .start,
    .stateChanged target .active (Manager.startedSub target.kind),
    .jobRemoved m.allocJobId.1 target .done], ?_, ?_⟩, ?_⟩
  · show ((m.events ++ _) ++ _) ++ _ = _
    rw [List.append_assoc, List.append_assoc]
    rfl
  · simp [UnitEvent.drops]
  · intro u
    show ((m.newJob target .start).2.markState target _ _).status.get? u = _
    rw [Manager.markState_status, Manager.newJob_status]

/-- The start of a unit without a status is announced, and leaves every status. -/
theorem startUnit_unloaded (m : Manager) (hno : m.status.get? target = none) :
    (∀ u, (m.startUnit target).mgr.status.get? u = m.status.get? u) ∧
      ∃ new, (m.startUnit target).mgr.events = m.events ++ new ∧
        ∀ e ∈ new, ∀ v, v ≠ target → e.drops v = false := by
  have hmark : ∀ a b u, ((m.newJob target .start).2.markState target a b).status.get? u =
      m.status.get? u := by
    intro a b u
    rw [Manager.markState_status, Manager.newJob_status]
    split
    next he => rw [he, hno, Option.map_none]
    next => rfl
  by_cases hk : target.kind = .service
  · simp only [Manager.startUnit, if_pos hk, Manager.spawnServiceStart]
    split
    · exact ⟨fun u => rfl, [.jobNew m.allocJobId.1 target .start], rfl, by simp [UnitEvent.drops]⟩
    · refine ⟨hmark _ _, [.jobNew m.allocJobId.1 target .start,
        .stateChanged target .activating .start], ?_, ?_⟩
      · exact List.append_assoc _ _ _
      · intro e he v hv
        simp only [List.mem_cons, List.not_mem_nil, or_false] at he
        obtain rfl | rfl := he
        · rfl
        · simp [UnitEvent.drops, hv.symm]
  · obtain ⟨-, ⟨new, hevents, hnew⟩, -⟩ := startUnit_plain m hk
    refine ⟨?_, new, hevents, fun e he v _ => hnew e he v⟩
    simp only [Manager.startUnit, if_neg hk]
    exact hmark _ _

/-- A fire of a unit without a status leaves the timer waiting. -/
theorem fire_unloaded (timer : UnitName) (hno : w.mgr.status.get? target = none) :
    ((w.mgr.markState timer .active .running).startUnit target).mgr.isActive target = false ∧
      (∀ u, (w.fire timer target).mgr.status.get? u = if u = timer then
        (w.mgr.status.get? u).map fun st => { st with active := .active, sub := .waiting }
        else w.mgr.status.get? u) ∧
      ∃ new, (w.fire timer target).mgr.events = w.mgr.events ++ new ∧
        ∀ e ∈ new, ∀ v, v ≠ target → e.drops v = false := by
  have hno' : (w.mgr.markState timer .active .running).status.get? target = none := by
    rw [Manager.markState_status, hno, Option.map_none, ite_self]
  obtain ⟨hstatus, new, hevents, hnew⟩ := startUnit_unloaded _ hno'
  have hdown : ((w.mgr.markState timer .active .running).startUnit target).mgr.isActive target =
      false := by
    unfold Manager.isActive
    rw [hstatus, hno']
  have hmgr := Watch.fire_mgr w timer target rfl
  rw [hdown, if_neg (by simp)] at hmgr
  refine ⟨hdown, ?_,
    .stateChanged timer .active .running :: new ++ [.stateChanged timer .active .waiting], ?_, ?_⟩
  · intro u
    rw [hmgr, Manager.markState_status, hstatus, Manager.markState_status]
    split
    · rw [Option.map_map]
      rfl
    · rfl
  · rw [hmgr]
    show ((w.mgr.markState timer .active .running).startUnit target).mgr.events ++ _ = _
    rw [hevents]
    show ((w.mgr.events ++ _) ++ _) ++ _ = _
    simp only [List.append_assoc, List.cons_append, List.nil_append]
  · intro e he v hv
    simp only [List.cons_append, List.mem_cons, List.mem_append, List.not_mem_nil, or_false] at he
    obtain rfl | he | rfl := he
    · simp [UnitEvent.drops]
    · exact hnew e he v hv
    · simp [UnitEvent.drops]

theorem fire_lock (w : World) (timer target : UnitName) : (w.fire timer target).lock = w.lock := by
  simp only [fire]
  split <;> exact startUnit_lock _ _

/-- A fire of a loaded unit that is no service leaves the unit active and the timer
running. -/
theorem fire_plain (timer : UnitName) (hk : target.kind ≠ .service) (hne : target ≠ timer)
    (hloaded : (w.mgr.status.get? target).isSome = true) :
    ((w.mgr.markState timer .active .running).startUnit target).mgr.isActive target = true ∧
      (∀ u, (w.fire timer target).mgr.status.get? u = if u = timer then
          (w.mgr.status.get? u).map fun st => { st with active := .active, sub := .running }
        else if u = target then (w.mgr.status.get? u).map
          fun st => { st with active := .active, sub := Manager.startedSub target.kind }
        else w.mgr.status.get? u) ∧
      ∃ new, (w.fire timer target).mgr.events = w.mgr.events ++ new ∧
        ∀ e ∈ new, ∀ v, e.drops v = false := by
  obtain ⟨-, ⟨new, hevents, hnew⟩, hstatus⟩ :=
    startUnit_plain (w.mgr.markState timer .active .running) hk
  have hup : ((w.mgr.markState timer .active .running).startUnit target).mgr.isActive target =
      true := by
    obtain ⟨st, hst⟩ := Option.isSome_iff_exists.mp hloaded
    unfold Manager.isActive
    rw [hstatus, if_pos rfl, Manager.markState_status, if_neg hne, hst]
    rfl
  have hmgr := Watch.fire_mgr w timer target rfl
  rw [if_pos hup] at hmgr
  refine ⟨hup, ?_, .stateChanged timer .active .running :: new, ?_, ?_⟩
  · intro u
    rw [hmgr, hstatus, Manager.markState_status]
    by_cases ht : u = timer
    · rw [if_pos ht, if_pos ht, if_neg fun he => hne (he.symm.trans ht)]
    · rw [if_neg ht, if_neg ht]
  · rw [hmgr, hevents]
    exact List.append_assoc _ [UnitEvent.stateChanged timer .active .running] _
  · intro e he v
    obtain rfl | he := List.mem_cons.mp he
    · simp [UnitEvent.drops]
    · exact hnew e he v

end World

end Systeml.Runtime
