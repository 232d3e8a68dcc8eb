import Systeml.Bus.ObjectPath
import Systeml.Lib.Broadcast
import Systeml.Runtime.Replay

/-!
# From events to signals

Every connection has a bridge: a task that subscribes to the manager's events and emits
them as signals of the manager's object, at its own pace. The daemon with its connections
is a step relation again: calls of the manager, connections that come and go, and the
bridges, one event at a time.

In every run a bridge emits what it was handed since it subscribed, in order; what a
client does not see was skipped by a bridge that fell behind the channel, or its emission
failed (`bridged_run`).
-/

namespace Systeml.Bus

open Systeml.Lib Systeml.Unit Systeml.Deps Systeml.Runtime

variable {tryFrom : Str → Option Str}

/-! ## Signals -/

/-- A signal of the manager's object. -/
inductive Signal where
  | unitNew (id path : Str)
  | unitRemoved (id path : Str)
  | jobNew (id : JobId) (job unit : Str)
  | jobRemoved (id : JobId) (job unit result : Str)
  deriving DecidableEq, Repr

def jobOutcomeStr : JobOutcome → Str
  | .done => "done".toList
  | .canceled => "canceled".toList
  | .timeout => "timeout".toList
  | .failed => "failed".toList
  | .dependencyFailed => "dependency".toList
  | .skipped => "skipped".toList

/-- The signal of an event, if it has one. A state change has none. -/
def forward (tryFrom : Str → Option Str) : UnitEvent → Except String (Option Signal)
  | .unitNew name => (unitObjectPath tryFrom name).map fun path =>
    some (.unitNew name.filename path)
  | .unitRemoved name => (unitObjectPath tryFrom name).map fun path =>
    some (.unitRemoved name.filename path)
  | .jobNew id unit _ => (unitObjectPath tryFrom unit).map fun path =>
    some (.jobNew id path unit.filename)
  | .jobRemoved id unit outcome => (unitObjectPath tryFrom unit).map fun path =>
    some (.jobRemoved id path unit.filename (jobOutcomeStr outcome))
  | .stateChanged .. => .ok none

/-- What a client hears of an event. -/
def heard? (tryFrom : Str → Option Str) (e : UnitEvent) : Option Signal :=
  (forward tryFrom e).toOption.join

/-- What a client hears of these events, if nothing is lost. -/
def heard (tryFrom : Str → Option Str) (events : List UnitEvent) : List Signal :=
  events.filterMap (heard? tryFrom)

/-- No event stops a bridge. -/
theorem forward_ok (htry : ∀ p, ValidObjectPath p → tryFrom p = some p) (e : UnitEvent) :
    ∃ s, forward tryFrom e = .ok s := by
  cases e with
  | unitNew n | unitRemoved n | jobNew _ n _ | jobRemoved _ n _ =>
    simp only [forward, unitObjectPath_ok htry]
    exact ⟨_, rfl⟩
  | stateChanged => exact ⟨none, rfl⟩

/-! ## The bridge -/

/-- The manager's channel keeps this many events. -/
def eventCapacity : Nat := 1024

/-- Why a bridge has ended. -/
inductive Ended where
  /-- A path that was built is not valid. -/
  | panicked
  /-- The connection is closed. -/
  | dropped
  deriving DecidableEq, Repr

/-- The bridge of a connection. -/
structure EventBridge where
  /-- How many events were sent when it subscribed. -/
  since : Nat
  /-- Where it stands now. -/
  next : Nat
  received : List (Recv UnitEvent) := []
  /-- The signals that were emitted. -/
  signals : List Signal := []
  /-- How many emissions failed. -/
  failed : Nat := 0
  ended : Option Ended := none
  deriving DecidableEq, Repr

/-- The bridge after it has forwarded an event. It goes on if the signal could not be
emitted. -/
def EventBridge.forwarded (tryFrom : Str → Option Str) (emitted : Bool) (b : EventBridge)
    (e : UnitEvent) : EventBridge :=
  match forward tryFrom e with
  | .error _ => { b with ended := some .panicked }
  | .ok none => b
  | .ok (some s) =>
    if emitted then { b with signals := b.signals ++ [s] }
    else { b with failed := b.failed + 1 }

/-- One turn of the loop. A receiver that lagged goes on. -/
def EventBridge.recv (tryFrom : Str → Option Str) (sent : List UnitEvent) (emitted : Bool)
    (b : EventBridge) : Option EventBridge :=
  if b.ended.isSome then none
  else (Lib.recv eventCapacity sent b.next).map fun (r, next) =>
    let b := { b with next, received := b.received ++ [r] }
    match r with
    | .lagged _ => b
    | .value e => b.forwarded tryFrom emitted e

/-- The daemon and the connections it has accepted. -/
structure Server where
  world : World
  bridges : List EventBridge := []

/-- What happens in a step. -/
inductive Event where
  /-- The manager is called, or something in flight goes on. -/
  | call (c : Call)
  /-- The bridge of a new connection subscribes. -/
  | connect
  /-- A bridge is handed an event; its signal is emitted or not. -/
  | recv (i : Nat) (emitted : Bool)
  | close (i : Nat)

/-- The calls among the steps. -/
def Event.calls : Event → List Call
  | .call c => [c]
  | .connect | .recv .. | .close _ => []

/-- A step. To subscribe, a bridge takes the manager's lock. -/
def Server.step (tryFrom : Str → Option Str) (s : Server) : Event → Option Server
  | .call c => (s.world.call c).map fun w => { s with world := w }
  | .connect =>
    if s.world.lock = .free then
      let sent := s.world.mgr.events.length
      some { s with bridges := s.bridges ++ [{ since := sent, next := sent }] }
    else none
  | .recv i emitted =>
    match s.bridges[i]? with
    | some b => (b.recv tryFrom s.world.mgr.events emitted).map fun b =>
      { s with bridges := s.bridges.set i b }
    | none => none
  | .close i =>
    some { s with bridges := s.bridges.modify i fun b =>
      { b with ended := b.ended.or (some .dropped) } }

/-- A daemon without connections. -/
def newServer (selfWeak : Bool) : Server := { world := World.newManager selfWeak }

theorem world_step {s s' : Server} {e : Event} (h : s.step tryFrom e = some s') :
    runs World.call s.world e.calls = some s'.world := by
  cases e with
  | call c =>
    obtain ⟨w, hw, rfl⟩ := Option.map_eq_some_iff.mp h
    exact runs_cons.mpr ⟨w, hw, rfl⟩
  | connect =>
    simp only [Server.step] at h
    split at h
    next =>
      obtain rfl := Option.some.inj h
      rfl
    next => exact absurd h (by simp)
  | recv i emitted =>
    simp only [Server.step] at h
    split at h
    next b hb =>
      obtain ⟨b', -, rfl⟩ := Option.map_eq_some_iff.mp h
      rfl
    next => exact absurd h (by simp)
  | close i =>
    obtain rfl := Option.some.inj h
    rfl

/-- The manager does not see its connections. -/
theorem world_run {s s' : Server} {es : List Event} (h : runs (Server.step tryFrom) s es = some s') :
    runs World.call s.world (es.flatMap Event.calls) = some s'.world :=
  runs_project (fun _ _ _ hs => world_step hs) h

/-! ## What a bridge has emitted -/

/-- What holds of a bridge when these events were sent. -/
structure Bridged (tryFrom : Str → Option Str) (sent : List UnitEvent) (b : EventBridge) :
    Prop where
  standing : Standing sent b.since b.next b.received
  /-- The signals are of events that it was handed, in their order. -/
  emitted : b.signals.Sublist (heard tryFrom (Recv.values b.received))
  /-- The others failed. -/
  failed : (heard tryFrom (Recv.values b.received)).length = b.signals.length + b.failed
  /-- Only a closed connection ends it. -/
  running : b.ended ≠ some .panicked

theorem values_append (rs : List (Recv UnitEvent)) (r : Recv UnitEvent) :
    Recv.values (rs ++ [r]) = Recv.values rs ++ Recv.values [r] :=
  List.filterMap_append

theorem heard_append (xs ys : List UnitEvent) :
    heard tryFrom (xs ++ ys) = heard tryFrom xs ++ heard tryFrom ys :=
  List.filterMap_append

/-- Without loss the signals are those of all events between two positions. -/
theorem Bridged.complete {sent : List UnitEvent} {b : EventBridge} (h : Bridged tryFrom sent b)
    (hlag : Recv.missedIn b.received = 0) (hfail : b.failed = 0) :
    b.signals = heard tryFrom ((sent.drop b.since).take (b.next - b.since)) := by
  have hvalues := h.standing.covers.values_eq hlag
  have hlen := h.failed
  rw [hfail, Nat.add_zero] at hlen
  rw [h.emitted.eq_of_length hlen.symm, hvalues]

/-- What was sent later does not touch a bridge. -/
theorem Bridged.send {sent : List UnitEvent} {b : EventBridge} (h : Bridged tryFrom sent b)
    (more : List UnitEvent) : Bridged tryFrom (sent ++ more) b :=
  ⟨h.standing.send more, h.emitted, h.failed, h.running⟩

theorem Bridged.recv (htry : ∀ p, ValidObjectPath p → tryFrom p = some p)
    {sent : List UnitEvent} {b b' : EventBridge} {emitted : Bool} (h : Bridged tryFrom sent b)
    (hr : b.recv tryFrom sent emitted = some b') : Bridged tryFrom sent b' := by
  unfold EventBridge.recv at hr
  split at hr
  next => exact absurd hr (by simp)
  next hrun =>
    obtain ⟨⟨r, next⟩, hrecv, rfl⟩ := Option.map_eq_some_iff.mp hr
    have hstanding := h.standing.recv hrecv
    -- what it hears of this one
    have hvalues : heard tryFrom (Recv.values (b.received ++ [r])) =
        heard tryFrom (Recv.values b.received) ++ heard tryFrom (Recv.values [r]) := by
      rw [values_append, heard_append]
    cases r with
    | lagged n =>
      have hnone : heard tryFrom (Recv.values [Recv.lagged n]) = [] := rfl
      rw [hnone, List.append_nil] at hvalues
      exact ⟨hstanding, hvalues ▸ h.emitted, hvalues ▸ h.failed, h.running⟩
    | value e =>
      obtain ⟨s, hs⟩ := forward_ok htry e
      simp only [EventBridge.forwarded, hs]
      have hone : heard tryFrom (Recv.values [Recv.value e]) = s.toList := by
        show List.filterMap (heard? tryFrom) [e] = _
        rw [List.filterMap_cons, heard?, hs]
        cases s <;> rfl
      rw [hone] at hvalues
      cases s with
      | none =>
        rw [Option.toList_none, List.append_nil] at hvalues
        exact ⟨hstanding, hvalues ▸ h.emitted, hvalues ▸ h.failed, h.running⟩
      | some s =>
        rw [Option.toList_some] at hvalues
        have hlen : (heard tryFrom (Recv.values (b.received ++ [Recv.value e]))).length =
            b.signals.length + b.failed + 1 := by
          rw [hvalues, List.length_append, h.failed]
          rfl
        cases emitted with
        | true =>
          refine ⟨hstanding, hvalues ▸ h.emitted.append (List.Sublist.refl _), hlen.trans ?_,
            h.running⟩
          show _ = (b.signals ++ [s]).length + b.failed
          rw [List.length_append, List.length_singleton]
          omega
        | false =>
          exact ⟨hstanding, hvalues ▸ h.emitted.trans (List.sublist_append_left _ _),
            hlen.trans (Nat.add_assoc _ _ _), h.running⟩

/-- What holds of the daemon and its bridges. -/
structure Server.Linked (tryFrom : Str → Option Str) (s : Server) : Prop where
  sound : s.world.Sound
  bridged : ∀ b ∈ s.bridges, Bridged tryFrom s.world.mgr.events b

theorem linked_step (htry : ∀ p, ValidObjectPath p → tryFrom p = some p) {s s' : Server}
    {e : Event} (h : s.Linked tryFrom) (hs : s.step tryFrom e = some s') : s'.Linked tryFrom := by
  cases e with
  | call c =>
    obtain ⟨w, hw, rfl⟩ := Option.map_eq_some_iff.mp hs
    obtain ⟨more, hmore⟩ := World.call_events h.sound hw
    exact ⟨World.sound_call h.sound hw, fun b hb => hmore ▸ (h.bridged b hb).send more⟩
  | connect =>
    simp only [Server.step] at hs
    split at hs
    next =>
      obtain rfl := Option.some.inj hs
      refine ⟨h.sound, fun b hb => ?_⟩
      obtain hb | hb := List.mem_append.mp hb
      · exact h.bridged b hb
      · rw [List.mem_singleton.mp hb]
        exact ⟨.subscribe _, .slnil, rfl, by simp⟩
    next => exact absurd hs (by simp)
  | recv i emitted =>
    simp only [Server.step] at hs
    split at hs
    next b hb =>
      obtain ⟨b', hr, rfl⟩ := Option.map_eq_some_iff.mp hs
      refine ⟨h.sound, fun c hc => ?_⟩
      obtain hc | rfl := List.mem_or_eq_of_mem_set hc
      · exact h.bridged c hc
      · exact (h.bridged b (List.mem_of_getElem? hb)).recv htry hr
    next => exact absurd hs (by simp)
  | close i =>
    obtain rfl := Option.some.inj hs
    refine ⟨h.sound, fun c hc => ?_⟩
    obtain ⟨j, hj⟩ := List.mem_iff_getElem?.mp hc
    rw [List.getElem?_modify] at hj
    obtain ⟨b, hb, rfl⟩ := Option.map_eq_some_iff.mp hj
    have hold := h.bridged b (List.mem_of_getElem? hb)
    split
    next =>
      refine ⟨hold.standing, hold.emitted, hold.failed, ?_⟩
      show b.ended.or (some .dropped) ≠ _
      have hrun := hold.running
      cases he : b.ended with
      | none => simp
      | some x =>
        rw [he] at hrun
        simpa using hrun
    next => exact hold

theorem linked_new (b : Bool) : (newServer b).Linked tryFrom :=
  ⟨World.sound_of_idle (fun u r hu => absurd hu (by simp [newServer, World.newManager])) rfl rfl,
    fun _ h => absurd h List.not_mem_nil⟩

theorem linked_run (htry : ∀ p, ValidObjectPath p → tryFrom p = some p) {s s' : Server}
    {es : List Event} (h : s.Linked tryFrom) (hrun : runs (Server.step tryFrom) s es = some s') :
    s'.Linked tryFrom :=
  runs_inv (fun _ _ _ hs _ hstep => linked_step htry hs hstep) h
    (Along.of_labels (p := fun _ => True) fun _ _ => trivial) hrun

/-- **What a bridge has emitted.** In every run each bridge was handed the events since it
subscribed, in order, or told how many it missed; it emitted the signals of those it was
handed, in order, but for the emissions that failed; and without such a loss it emitted the
signals of all events up to where it stands. -/
theorem bridged_run (htry : ∀ p, ValidObjectPath p → tryFrom p = some p) {selfWeak : Bool}
    {es : List Event} {s : Server}
    (hrun : runs (Server.step tryFrom) (newServer selfWeak) es = some s) {b : EventBridge}
    (hb : b ∈ s.bridges) :
    Bridged tryFrom s.world.mgr.events b ∧
      (Recv.missedIn b.received = 0 → b.failed = 0 →
        b.signals = heard tryFrom ((s.world.mgr.events.drop b.since).take (b.next - b.since))) := by
  have hbridged := (linked_run htry (linked_new selfWeak) hrun).bridged b hb
  exact ⟨hbridged, hbridged.complete⟩

/-- A connection, and a unit that is put in before its bridge goes on. -/
def lateSignalRun : List Event :=
  [.connect, .call (.insertLoaded serviceName World.loadedService)]

/-- The bridge goes on, and emits a signal. -/
def signalledRun : List Event := lateSignalRun ++ [.recv 0 true]

theorem bridged_run_signalled :
    ∃ s b, runs (Server.step ofValid) (newServer true) signalledRun = some s ∧ s.bridges = [b] ∧
      b.signals.length = 1 ∧ Bridged ofValid s.world.mgr.events b ∧
      (Recv.missedIn b.received = 0 → b.failed = 0 → b.signals =
        heard ofValid ((s.world.mgr.events.drop b.since).take (b.next - b.since))) := by
  have hbridges : (runs (Server.step ofValid) (newServer true) signalledRun).map
      (fun s => s.bridges.map fun b => b.signals.length) = some [1] := by decide +kernel
  obtain ⟨s, hs, hlen⟩ := Option.map_eq_some_iff.mp hbridges
  obtain ⟨b, hb, hone⟩ := List.map_eq_singleton_iff.mp hlen
  exact ⟨s, b, hs, hb, hone, bridged_run (fun _ => ofValid_of_valid) hs (hb ▸ List.mem_cons_self)⟩

end Systeml.Bus
