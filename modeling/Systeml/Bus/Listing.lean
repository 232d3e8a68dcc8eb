import Systeml.Bus.Bridge
import Systeml.Bus.GlobMatch

/-!
# Clients that list and follow

A client asks for the units once and keeps its list up to date by the signals. The list can
be asked for at any time after the connection's bridge has subscribed: a client that goes
through the signals from the first one on knows the units that are listed now, although some
of the signals are older than its list (`follow_run`). That holds because the registry tells
of every unit that comes and goes, and because a name stands for one unit.
-/

namespace Systeml.Bus

open Systeml.Lib Systeml.Unit Systeml.Deps Systeml.Runtime

variable {tryFrom : Str → Option Str}

/-! ## Listing the units -/

/-- A row of `ListUnits`. -/
structure UnitListEntry where
  name : Str
  description : Str
  loadState : Str
  activeState : Str
  subState : Str
  follower : Str
  unitPath : Str
  jobId : Nat
  jobType : Str
  jobPath : Str
  deriving DecidableEq, Repr

def activeStateStr : ActiveState → Str
  | .inactive => "inactive".toList
  | .activating => "activating".toList
  | .active => "active".toList
  | .deactivating => "deactivating".toList
  | .failed => "failed".toList
  | .reloading => "reloading".toList
  | .maintenance => "maintenance".toList

def loadStateStr : LoadState → Str
  | .loaded => "loaded".toList
  | .error => "error".toList
  | .stub => "stub".toList
  | .masked => "masked".toList
  | .notFound => "not-found".toList
  | .merged => "merged".toList
  | .badSetting => "bad-setting".toList

/-- The texts of the sub-states that the manager and the runners set. -/
def subStateStr : SubState → Str
  | .unset => []
  | .dead => "dead".toList
  | .startPre => "start-pre".toList
  | .start => "start".toList
  | .running => "running".toList
  | .failed => "failed".toList
  | .stop => "stop".toList
  | .reload => "reload".toList
  | .waiting => "waiting".toList
  | .listening => "listening".toList
  | .active => "active".toList

/-- The row of a unit. -/
def unitListEntry (tryFrom : Str → Option Str) (e : UnitName × UnitStatus) :
    Except String UnitListEntry :=
  (unitObjectPath tryFrom e.1).map fun path =>
    { name := e.1.filename, description := e.2.description, loadState := loadStateStr e.2.load
      activeState := activeStateStr e.2.active, subState := subStateStr e.2.sub, follower := []
      unitPath := path, jobId := 0, jobType := [], jobPath := ['/'] }

/-- `ListUnits`. -/
def listUnits (tryFrom : Str → Option Str) (m : Manager) : Except String (List UnitListEntry) :=
  m.status.entries.mapM (unitListEntry tryFrom)

/-- The name is one that is asked for. -/
def wanted (patterns : List Str) (name : Str) : Bool :=
  patterns.isEmpty || patterns.any fun p => globMatch p name

/-- `ListUnitsByPatterns`. -/
def listUnitsByPatterns (tryFrom : Str → Option Str) (m : Manager) (states patterns : List Str) :
    Except String (List UnitListEntry) :=
  (listUnits tryFrom m).map fun all => all.filter fun row =>
    if !states.isEmpty && !states.any (fun s => s == row.activeState) then false
    else wanted patterns row.name

/-- No unit stops the listing. -/
theorem listUnits_ok (htry : ∀ p, ValidObjectPath p → tryFrom p = some p) (m : Manager)
    (states patterns : List Str) :
    ∃ rows, listUnitsByPatterns tryFrom m states patterns = .ok rows := by
  have hall : ∀ l : List (UnitName × UnitStatus), ∃ rows, l.mapM (unitListEntry tryFrom) = .ok rows := by
    intro l
    induction l with
    | nil => exact ⟨[], rfl⟩
    | cons e l ih =>
      obtain ⟨rows, hrows⟩ := ih
      have hone : ∃ row, unitListEntry tryFrom e = .ok row := by
        unfold unitListEntry
        rw [unitObjectPath_ok htry]
        exact ⟨_, rfl⟩
      obtain ⟨row, hrow⟩ := hone
      refine ⟨row :: rows, ?_⟩
      rw [List.mapM_cons, hrow, hrows]
      rfl
  obtain ⟨rows, hrows⟩ := hall m.status.entries
  unfold listUnitsByPatterns listUnits
  rw [hrows]
  exact ⟨_, rfl⟩

theorem names_of_mapM : ∀ {l : List (UnitName × UnitStatus)} {rows : List UnitListEntry},
    l.mapM (unitListEntry tryFrom) = .ok rows →
      rows.map UnitListEntry.name = l.map fun e => e.1.filename
  | [], rows, h => by
    obtain rfl := Except.ok.inj h
    rfl
  | e :: l, rows, h => by
    rw [List.mapM_cons] at h
    cases he : unitListEntry tryFrom e with
    | error x =>
      rw [he] at h
      exact absurd h (by simp [bind, Except.bind])
    | ok row =>
      rw [he] at h
      cases hl : l.mapM (unitListEntry tryFrom) with
      | error x =>
        rw [hl] at h
        exact absurd h (by simp [bind, Except.bind])
      | ok rest =>
        rw [hl] at h
        obtain rfl := Except.ok.inj h
        have hname : row.name = e.1.filename := by
          unfold unitListEntry at he
          cases hp : unitObjectPath tryFrom e.1 with
          | error x =>
            rw [hp] at he
            exact absurd he (by simp [Except.map])
          | ok path =>
            rw [hp] at he
            obtain rfl := Except.ok.inj he
            rfl
        rw [List.map_cons, List.map_cons, hname, names_of_mapM hl]

/-- The names that are listed: those of the units with a status that are asked for. -/
theorem names_listed {m : Manager} {patterns : List Str} {rows : List UnitListEntry}
    (h : listUnitsByPatterns tryFrom m [] patterns = .ok rows) :
    rows.map UnitListEntry.name =
      (m.status.keys.map UnitName.filename).filter (wanted patterns) := by
  unfold listUnitsByPatterns at h
  cases hall : listUnits tryFrom m with
  | error x =>
    rw [hall] at h
    exact absurd h (by simp [Except.map])
  | ok all =>
    rw [hall] at h
    obtain rfl := Except.ok.inj h
    have hnames := names_of_mapM hall
    have hkeys : m.status.keys.map UnitName.filename =
        m.status.entries.map fun e => e.1.filename := by
      unfold IndexMap.keys
      rw [List.map_map]
      rfl
    rw [hkeys, ← hnames, List.filter_map]
    rfl

/-! ## Following the signals -/

/-- What a client that follows knows after a signal. -/
def Signal.follow (known : List Str) : Signal → List Str
  | .unitNew id _ => if id ∈ known then known else known ++ [id]
  | .unitRemoved id _ => known.filter fun name => name ≠ id
  | .jobNew .. | .jobRemoved .. => known

/-- Whether it knows this name after an event. -/
def knows (id : Str) (known : Bool) : UnitEvent → Bool
  | .unitNew n => if n.filename = id then true else known
  | .unitRemoved n => if n.filename = id then false else known
  | .jobNew .. | .jobRemoved .. | .stateChanged .. => known

theorem knows_overwrites (id : Str) : Overwrites (knows id) := by
  intro e
  cases e with
  | unitNew n =>
    by_cases h : n.filename = id
    · exact Or.inr ⟨true, fun s => if_pos h⟩
    · exact Or.inl fun s => if_neg h
  | unitRemoved n =>
    by_cases h : n.filename = id
    · exact Or.inr ⟨false, fun s => if_pos h⟩
    · exact Or.inl fun s => if_neg h
  | jobNew | jobRemoved | stateChanged => exact Or.inl fun s => rfl

theorem mem_follow (htry : ∀ p, ValidObjectPath p → tryFrom p = some p) {id : Str}
    {events : List UnitEvent} : ∀ {known : List Str},
      id ∈ (heard tryFrom events).foldl Signal.follow known ↔
        events.foldl (knows id) (decide (id ∈ known)) = true := by
  induction events with
  | nil => simp [heard]
  | cons e events ih =>
    intro known
    have hcons : heard tryFrom (e :: events) = (heard? tryFrom e).toList ++ heard tryFrom events := by
      unfold heard
      rw [List.filterMap_cons]
      cases heard? tryFrom e <;> rfl
    have hone : decide (id ∈ (heard? tryFrom e).toList.foldl Signal.follow known) =
        knows id (decide (id ∈ known)) e := by
      unfold heard?
      cases e with
      | unitNew n =>
        simp only [forward, unitObjectPath_ok htry]
        show decide (id ∈ if n.filename ∈ known then known else known ++ [n.filename]) =
          if n.filename = id then true else decide (id ∈ known)
        by_cases hn : n.filename = id
        · subst hn
          split <;> simp_all
        · have hne : id ≠ n.filename := fun h => hn h.symm
          split <;> simp [hne]
      | unitRemoved n =>
        simp only [forward, unitObjectPath_ok htry]
        show decide (id ∈ known.filter fun name => name ≠ n.filename) =
          if n.filename = id then false else decide (id ∈ known)
        by_cases hn : n.filename = id
        · simp [hn]
        · have hne : id ≠ n.filename := fun h => hn h.symm
          simp [hn, hne]
      | jobNew _ n _ | jobRemoved _ n _ =>
        simp only [forward, unitObjectPath_ok htry]
        rfl
      | stateChanged => rfl
    rw [hcons, List.foldl_append, ih, hone, List.foldl_cons]

/-! ## The names that are told -/

/-- The name is read back from its text, as names are that come from there. -/
def Parsed (n : UnitName) : Prop := fromStr n.filename = .ok n

/-- The calls bring units in under these names only. -/
def BringsIn (P : UnitName → Prop) : Call → Prop
  | .insertLoaded name _ => P name
  | .daemonReload paths => ∀ e ∈ paths, P e.1
  | .other _ => True

/-- The registry holds these names only, and has told of no other. -/
structure NamesIn (P : UnitName → Prop) (w : World) : Prop where
  units : ∀ n ∈ w.mgr.units.keys, P n
  status : ∀ n ∈ w.mgr.status.keys, P n
  told : ∀ n, .unitNew n ∈ w.mgr.events ∨ .unitRemoved n ∈ w.mgr.events → P n
  pending : ∀ ops, w.reloading = some ops → ∀ op ∈ ops, ∀ n, op.name? = some n → P n

theorem namesIn_call {P : UnitName → Prop} {w w' : World} {c : Call} (h : NamesIn P w)
    (hc : BringsIn P c) (hs : w.call c = some w') : NamesIn P w' := by
  obtain ⟨name, lu, rfl, hl, rfl⟩ | ⟨paths, rfl, hl, rfl⟩ | ⟨rfl, hr⟩ | ⟨l, rfl, hreg, hre⟩ :=
    World.call_cases hs
  · have hunits : (w.insertLoaded name lu).mgr.units = w.mgr.units.insert name lu.unit := by
      unfold World.insertLoaded
      split <;> rfl
    obtain ⟨hevents, hstatus⟩ := World.insertLoaded_mgr w name lu
    have hidle := World.reloading_of_free ((World.insertLoaded_lock w name lu).trans hl)
    refine ⟨?_, ?_, ?_, fun ops hops => absurd (hidle.symm.trans hops) (by simp)⟩
    · rw [hunits]
      intro n hn
      obtain rfl | hn := IndexMap.mem_keys_insert.mp hn
      · exact hc
      · exact h.units n hn
    · rw [hstatus]
      intro n hn
      obtain rfl | hn := IndexMap.mem_keys_insert.mp hn
      · exact hc
      · exact h.status n hn
    · rw [hevents]
      intro n hn
      simp only [List.mem_append, List.mem_singleton, UnitEvent.unitNew.injEq, reduceCtorEq,
        or_false] at hn
      obtain (hn | rfl) | hn := hn
      · exact h.told n (Or.inl hn)
      · exact hc
      · exact h.told n (Or.inr hn)
  · obtain ⟨hunits, hstatus, -, hevents⟩ :=
      World.foldl_dropUnit (World.gone w paths.disk) w.mgr
    rw [← World.daemonReload_mgr] at hunits hevents hstatus
    refine ⟨hunits ▸ h.units, fun n hn => h.status n ((hstatus n).mp hn).2, ?_, ?_⟩
    · rw [hevents]
      intro n hn
      simp only [List.mem_append, List.mem_map, UnitEvent.unitRemoved.injEq, reduceCtorEq,
        and_false, exists_false, or_false, exists_eq_right] at hn
      obtain hn | hn | hn := hn
      · exact h.told n (Or.inl hn)
      · exact h.told n (Or.inr hn)
      · exact h.units n (World.mem_gone.mp hn).1
    · intro ops hops op hop n hn
      obtain rfl := Option.some.inj ((World.reloading_of_lock rfl).symm.trans hops)
      obtain ⟨⟨m, spec⟩, he, rfl⟩ := List.mem_map.mp hop
      obtain rfl := Option.some.inj hn
      obtain ⟨⟨m', o⟩, hm, ho⟩ := List.mem_filterMap.mp
        (IndexMap.mem_of_get?_ofList (IndexMap.mem_entries.mp he))
      obtain ⟨e, hmem, he⟩ := List.mem_map.mp hm
      obtain ⟨rfl, rfl⟩ := Prod.mk.inj he
      obtain rfl : e.1 = m := by
        split at ho
        next => split at ho <;> simp_all
        next => exact absurd ho (by simp)
      exact hc e hmem
  · obtain ⟨hl, rfl⟩ | ⟨op, rest, hl, ho⟩ := World.reloadStep_cases hr
    · exact ⟨h.units, h.status, h.told, fun ops hops => absurd hops (by simp [World.reloading,
        Lock.pending])⟩
    · have hpend := h.pending _ (World.reloading_of_lock hl)
      have hrest : ∀ op ∈ rest, ∀ n, op.name? = some n → P n := fun op hop =>
        hpend op (List.mem_cons_of_mem _ hop)
      obtain ⟨n, spec, copies, st, new, rfl, hcopies, -, hm, hl'⟩ | ⟨-, hm, hl'⟩ |
        ⟨n, spec, st, new, rfl, hm, hl'⟩ := World.reloadOp_cases ho
      · have hn : P n := hpend _ List.mem_cons_self n rfl
        refine ⟨by rw [hm]; exact h.units, ?_, by rw [hm]; exact h.told, ?_⟩
        · rw [hm]
          exact fun u hu => h.status u (IndexMap.mem_keys_erase.mp hu).2
        · intro ops hops op hop u hu
          obtain rfl := Option.some.inj ((World.reloading_of_lock hl').symm.trans hops)
          obtain hop | hop := List.mem_append.mp hop
          · rw [name?_of_isCopy (hcopies op hop)] at hu
            exact absurd hu (by simp)
          · obtain rfl | hop := List.mem_cons.mp hop
            · obtain rfl := Option.some.inj hu
              exact hn
            · exact hrest op hop u hu
      · refine ⟨hm ▸ h.units, hm ▸ h.status, hm ▸ h.told, fun ops hops => ?_⟩
        obtain rfl := Option.some.inj ((World.reloading_of_lock hl').symm.trans hops)
        exact hrest
      · have hn : P n := hpend _ List.mem_cons_self n rfl
        refine ⟨?_, ?_, ?_, fun ops hops => ?_⟩
        · rw [hm]
          intro u hu
          obtain rfl | hu := IndexMap.mem_keys_insert.mp hu
          · exact hn
          · exact h.units u hu
        · rw [hm]
          intro u hu
          obtain rfl | hu := IndexMap.mem_keys_insert.mp hu
          · exact hn
          · exact h.status u hu
        · rw [hm]
          intro u hu
          simp only [Manager.install, Manager.emit, List.mem_append, List.mem_singleton,
            UnitEvent.unitNew.injEq, reduceCtorEq, or_false] at hu
          obtain (hu | rfl) | hu := hu
          · exact h.told u (Or.inl hu)
          · exact hn
          · exact h.told u (Or.inr hu)
        · obtain rfl := Option.some.inj ((World.reloading_of_lock hl').symm.trans hops)
          exact hrest
  · have hmem : ∀ e : UnitEvent, e.ofRegistry = true → e ∈ w'.mgr.events → e ∈ w.mgr.events := by
      intro e he hin
      rw [← List.count_pos_iff] at hin ⊢
      rwa [hreg.reports e he] at hin
    refine ⟨hreg.units ▸ h.units, hreg.keys ▸ h.status, ?_, hre ▸ h.pending⟩
    rintro n (hn | hn)
    · exact h.told n (Or.inl (hmem _ rfl hn))
    · exact h.told n (Or.inr (hmem _ rfl hn))

theorem namesIn_new (P : UnitName → Prop) (b : Bool) : NamesIn P (World.newManager b) :=
  ⟨fun _ h => absurd h List.not_mem_nil, fun _ h => absurd h List.not_mem_nil,
    fun _ h => absurd h (by simp [World.newManager]),
    fun _ h => absurd h (by simp [World.reloading, World.newManager, Lock.pending])⟩

/-! ## A client that lists and follows -/

/-- The names with a status are those that all events told of leave known. -/
theorem mem_status_iff {w : World} (hnames : NamesIn Parsed w)
    (hrep : ∀ u, World.Replayed (fun _ => ()) u w) (hidle : w.reloading = none) {id : Str} :
    id ∈ w.mgr.status.keys.map UnitName.filename ↔
      w.mgr.events.foldl (knows id) false = true := by
  cases hid : fromStr id with
  | error x =>
    -- no unit has this name
    have hother : ∀ {n}, Parsed n → n.filename ≠ id := by
      rintro n hn rfl
      exact absurd (hid.symm.trans hn) (by simp)
    have hfold : ∀ events : List UnitEvent, (∀ n, .unitNew n ∈ events ∨ .unitRemoved n ∈ events →
        Parsed n) → ∀ b, events.foldl (knows id) b = b := by
      intro events
      induction events with
      | nil => exact fun _ b => rfl
      | cons e events ih =>
        intro htold b
        have he : knows id b e = b := by
          cases e with
          | unitNew n => exact if_neg (hother (htold n (Or.inl List.mem_cons_self)))
          | unitRemoved n => exact if_neg (hother (htold n (Or.inr List.mem_cons_self)))
          | jobNew | jobRemoved | stateChanged => rfl
        rw [List.foldl_cons, he]
        exact ih (fun n hn => htold n (hn.imp (List.mem_cons_of_mem _) (List.mem_cons_of_mem _))) b
    rw [hfold _ hnames.told]
    refine iff_of_false (fun hin => ?_) (by simp)
    obtain ⟨n, hn, hfile⟩ := List.mem_map.mp hin
    exact hother (hnames.status n hn) hfile
  | ok u =>
    have hu : u.filename = id := filename_of_fromStr hid
    have hiff : ∀ {n}, Parsed n → (n.filename = id ↔ n = u) := by
      intro n hn
      constructor
      · rintro rfl
        exact (Except.ok.inj (hid.symm.trans hn)).symm
      · rintro rfl
        exact hu
    have hfold : ∀ events : List UnitEvent, (∀ n, .unitNew n ∈ events ∨ .unitRemoved n ∈ events →
        Parsed n) → ∀ o : Option ActiveState, events.foldl (knows id) o.isSome =
          (events.foldl (UnitEvent.replay u) o).isSome := by
      intro events
      induction events with
      | nil => exact fun _ o => rfl
      | cons e events ih =>
        intro htold o
        have he : knows id o.isSome e = (e.replay u o).isSome := by
          cases e with
          | unitNew n =>
            simp only [knows, UnitEvent.replay, hiff (htold n (Or.inl List.mem_cons_self))]
            split <;> rfl
          | unitRemoved n =>
            simp only [knows, UnitEvent.replay, hiff (htold n (Or.inr List.mem_cons_self))]
            split <;> rfl
          | stateChanged n a s =>
            simp only [knows, UnitEvent.replay]
            split <;> simp
          | jobNew | jobRemoved => rfl
        rw [List.foldl_cons, List.foldl_cons, he]
        exact ih (fun n hn => htold n (hn.imp (List.mem_cons_of_mem _) (List.mem_cons_of_mem _))) _
    have hstatus := congrArg Option.isSome ((World.replayed_of_idle hidle).mp (hrep u))
    rw [Option.isSome_map, Option.isSome_map] at hstatus
    have hknown := hfold _ hnames.told none
    rw [Option.isSome_none] at hknown
    rw [hknown, show (w.mgr.events.foldl (UnitEvent.replay u) none).isSome =
      (w.mgr.status.get? u).isSome from hstatus, Option.isSome_iff_exists, ← IndexMap.mem_keys,
      List.mem_map]
    constructor
    · rintro ⟨n, hn, hfile⟩
      rwa [(hiff (hnames.status n hn)).mp hfile] at hn
    · exact fun h => ⟨u, h, hu⟩

/-- A bridge keeps its place. -/
theorem since_step {s s' : Server} {e : Event} {i n : Nat}
    (h : (s.bridges[i]?).map EventBridge.since = some n) (hs : s.step tryFrom e = some s') :
    (s'.bridges[i]?).map EventBridge.since = some n := by
  obtain ⟨b, hb, rfl⟩ := Option.map_eq_some_iff.mp h
  cases e with
  | call c =>
    obtain ⟨w, -, rfl⟩ := Option.map_eq_some_iff.mp hs
    exact h
  | connect =>
    simp only [Server.step] at hs
    split at hs
    next =>
      obtain rfl := Option.some.inj hs
      rw [List.getElem?_append_left (List.getElem?_eq_some_iff.mp hb).1]
      exact h
    next => exact absurd hs (by simp)
  | recv j emitted =>
    simp only [Server.step] at hs
    split at hs
    next c hc =>
      obtain ⟨c', hr, rfl⟩ := Option.map_eq_some_iff.mp hs
      by_cases hij : j = i
      · subst hij
        obtain rfl := Option.some.inj (hb.symm.trans hc)
        rw [List.getElem?_set_self (List.getElem?_eq_some_iff.mp hb).1]
        refine congrArg some ?_
        unfold EventBridge.recv at hr
        split at hr
        next => exact absurd hr (by simp)
        next =>
          obtain ⟨⟨r, next⟩, -, rfl⟩ := Option.map_eq_some_iff.mp hr
          cases r with
          | lagged k => rfl
          | value e =>
            simp only [EventBridge.forwarded]
            split
            · rfl
            · rfl
            · split <;> rfl
      · rw [List.getElem?_set_ne hij]
        exact h
    next => exact absurd hs (by simp)
  | close j =>
    obtain rfl := Option.some.inj hs
    rw [List.getElem?_modify, hb]
    show some (EventBridge.since _) = _
    split <;> rfl

/-- What was sent stays sent. -/
theorem events_run (htry : ∀ p, ValidObjectPath p → tryFrom p = some p) {s s' : Server}
    {es : List Event} (h : s.Linked tryFrom) (hrun : runs (Server.step tryFrom) s es = some s') :
    s.world.mgr.events <+: s'.world.mgr.events := by
  have hrel := runs_inv (P := fun t : Server => t.Linked tryFrom ∧
      s.world.mgr.events <+: t.world.mgr.events) ?_ ⟨h, List.prefix_rfl⟩
    (Along.of_labels (p := fun _ => True) fun _ _ => trivial) hrun
  · exact hrel.2
  · rintro t e t' ⟨ht, hpre⟩ - hstep
    refine ⟨linked_step htry ht hstep, hpre.trans ?_⟩
    cases e with
    | call c =>
      obtain ⟨w, hw, rfl⟩ := Option.map_eq_some_iff.mp hstep
      exact World.call_events ht.sound hw
    | connect | recv | close =>
      have hw := world_step hstep
      exact Option.some.inj hw ▸ List.prefix_rfl

/-- In every run the names that are listed are those that the events leave known. -/
theorem listed_run {selfWeak : Bool} {es : List Event} {s : Server} {patterns : List Str}
    {rows : List UnitListEntry} {id : Str} (hnames : ∀ e ∈ es, ∀ c ∈ e.calls, BringsIn Parsed c)
    (hrun : runs (Server.step tryFrom) (newServer selfWeak) es = some s)
    (hfree : s.world.lock = .free)
    (hrows : listUnitsByPatterns tryFrom s.world.mgr [] patterns = .ok rows)
    (hid : wanted patterns id = true) :
    id ∈ rows.map UnitListEntry.name ↔ s.world.mgr.events.foldl (knows id) false = true := by
  have hworld := world_run hrun
  have halong : Along World.call (fun _ c => BringsIn Parsed c) (newServer selfWeak).world
      (es.flatMap Event.calls) := Along.of_labels fun c hc => by
    obtain ⟨e, he, hc⟩ := List.mem_flatMap.mp hc
    exact hnames e he c hc
  have hin : NamesIn Parsed s.world :=
    runs_inv (fun _ _ _ h hc hs => namesIn_call h hc hs) (namesIn_new _ _) halong hworld
  have hput : Along World.call (World.PutIn fun _ => ()) (newServer selfWeak).world
      (es.flatMap Event.calls) := halong.imp fun _ _ _ _ _ _ _ _ => rfl
  rw [names_listed hrows, List.mem_filter, and_iff_left hid]
  exact mem_status_iff hin (World.replayed_run hput hworld) (World.reloading_of_free hfree)

/-- **A client that lists and follows knows the units.** It lists them at any time after its
bridge has subscribed, and goes through the signals from the first one on. Once the bridge
has caught up and nothing was lost, the names it knows are those that are listed now. -/
theorem follow_run (htry : ∀ p, ValidObjectPath p → tryFrom p = some p) {selfWeak : Bool}
    {before after : List Event} {s₁ s₂ : Server}
    (hnames : ∀ e ∈ before ++ after, ∀ c ∈ e.calls, BringsIn Parsed c)
    (h₁ : runs (Server.step tryFrom) (newServer selfWeak) before = some s₁)
    (h₂ : runs (Server.step tryFrom) s₁ after = some s₂) {i : Nat} {b₁ b₂ : EventBridge}
    (hb₁ : s₁.bridges[i]? = some b₁) (hb₂ : s₂.bridges[i]? = some b₂)
    (hfree₁ : s₁.world.lock = .free) (hfree₂ : s₂.world.lock = .free) {patterns : List Str}
    {rows₁ rows₂ : List UnitListEntry}
    (hl₁ : listUnitsByPatterns tryFrom s₁.world.mgr [] patterns = .ok rows₁)
    (hl₂ : listUnitsByPatterns tryFrom s₂.world.mgr [] patterns = .ok rows₂)
    (hdone : b₂.next = s₂.world.mgr.events.length) (hlag : Recv.missedIn b₂.received = 0)
    (hfail : b₂.failed = 0) {id : Str} (hid : wanted patterns id = true) :
    id ∈ b₂.signals.foldl Signal.follow (rows₁.map UnitListEntry.name) ↔
      id ∈ rows₂.map UnitListEntry.name := by
  have hlinked₁ := linked_run htry (linked_new selfWeak) h₁
  have hlinked₂ := linked_run htry hlinked₁ h₂
  have hbridged₁ := hlinked₁.bridged b₁ (List.mem_of_getElem? hb₁)
  have hbridged₂ := hlinked₂.bridged b₂ (List.mem_of_getElem? hb₂)
  -- the bridge subscribed before the list was made
  have hsince : b₂.since = b₁.since := by
    have hkept : (s₂.bridges[i]?).map EventBridge.since = some b₁.since :=
      runs_inv (fun _ _ _ h _ hs => since_step h hs) (by rw [hb₁]; rfl)
        (Along.of_labels (p := fun _ => True) fun _ _ => trivial) h₂
    rw [hb₂] at hkept
    exact Option.some.inj hkept
  have hold : b₁.since ≤ s₁.world.mgr.events.length :=
    hbridged₁.standing.since_le.trans hbridged₁.standing.next_le
  obtain ⟨newer, hnewer⟩ := events_run htry hlinked₁ h₂
  have hrows₁ := listed_run (fun e he => hnames e (List.mem_append_left _ he)) h₁ hfree₁ hl₁ hid
  have hrows₂ := listed_run hnames (runs_append.mpr ⟨s₁, h₁, h₂⟩) hfree₂ hl₂ hid
  have hsignals := hbridged₂.complete hlag hfail
  have hall : (s₂.world.mgr.events.drop b₂.since).take (b₂.next - b₂.since) =
      s₁.world.mgr.events.drop b₁.since ++ newer := by
    rw [hdone, ← List.length_drop, List.take_length, hsince, ← hnewer,
      List.drop_append_of_le_length hold]
  rw [hsignals, hall, mem_follow htry, hrows₂]
  have hstart : decide (id ∈ rows₁.map UnitListEntry.name) =
      (s₁.world.mgr.events.drop b₁.since).foldl (knows id)
        ((s₁.world.mgr.events.take b₁.since).foldl (knows id) false) := by
    rw [← List.foldl_append, List.take_append_drop]
    exact Bool.eq_iff_iff.mpr (decide_eq_true_iff.trans hrows₁)
  rw [hstart, (knows_overwrites id).snapshot, ← List.foldl_append, ← List.append_assoc,
    List.take_append_drop, hnewer]

theorem follow_run_lateSignal : ∃ s₁ s₂ b₂ rows₁ rows₂,
    runs (Server.step ofValid) (newServer true) lateSignalRun = some s₁ ∧
      runs (Server.step ofValid) s₁ [.recv 0 true] = some s₂ ∧ s₂.bridges = [b₂] ∧
      listUnitsByPatterns ofValid s₁.world.mgr [] [] = .ok rows₁ ∧
      listUnitsByPatterns ofValid s₂.world.mgr [] [] = .ok rows₂ ∧
      (serviceName.filename ∈ b₂.signals.foldl Signal.follow (rows₁.map UnitListEntry.name) ↔
        serviceName.filename ∈ rows₂.map UnitListEntry.name) := by
  have htry : ∀ p, ValidObjectPath p → ofValid p = some p := fun _ => ofValid_of_valid
  have hfirst : (runs (Server.step ofValid) (newServer true) lateSignalRun).map
      (fun s => (s.bridges, s.world.lock, s.world.mgr.events)) =
        some ([⟨0, 0, [], [], 0, none⟩], .free, [.unitNew serviceName]) := rfl
  obtain ⟨s₁, h₁, hobs⟩ := Option.map_eq_some_iff.mp hfirst
  obtain ⟨hbridges, hobs⟩ := Prod.mk.inj hobs
  obtain ⟨hfree, hevents⟩ := Prod.mk.inj hobs
  obtain ⟨rows, hrows⟩ := listUnits_ok htry s₁.world.mgr [] []
  obtain ⟨b₂, hrecv, hnext, hlag, hfail⟩ : ∃ b₂,
      EventBridge.recv ofValid [.unitNew serviceName] true ⟨0, 0, [], [], 0, none⟩ = some b₂ ∧
        b₂.next = 1 ∧ Recv.missedIn b₂.received = 0 ∧ b₂.failed = 0 := by
    have hpath : forward ofValid (.unitNew serviceName) = .ok (some (.unitNew serviceName.filename
        (unitPathPrefix ++ encodePathComponent serviceName.filename))) := by
      simp only [forward, unitObjectPath_ok htry, Except.map]
    simp [EventBridge.recv, Lib.recv, eventCapacity, EventBridge.forwarded, hpath, Recv.missedIn,
      Recv.missed]
  obtain ⟨s₂, h₂, hbridges₂, hworld₂⟩ : ∃ s₂, runs (Server.step ofValid) s₁ [.recv 0 true] =
      some s₂ ∧ s₂.bridges = [b₂] ∧ s₂.world = s₁.world := by
    refine ⟨{ s₁ with bridges := [b₂] }, runs_cons.mpr ⟨_, ?_, rfl⟩, rfl, rfl⟩
    simp only [Server.step, hbridges, hevents]
    show Option.map _ (EventBridge.recv ofValid _ true ⟨0, 0, [], [], 0, none⟩) = _
    rw [hrecv]
    rfl
  refine ⟨s₁, s₂, b₂, rows, rows, h₁, h₂, hbridges₂, hrows, hworld₂ ▸ hrows, ?_⟩
  refine follow_run htry ?_ h₁ h₂ (show s₁.bridges[0]? = some _ by rw [hbridges]; rfl)
    (by rw [hbridges₂]; rfl) hfree (hworld₂ ▸ hfree) hrows (hworld₂ ▸ hrows) ?_ hlag hfail rfl
  · intro e he c hc
    simp only [lateSignalRun, List.cons_append, List.nil_append, List.mem_cons,
      List.not_mem_nil, or_false] at he
    obtain rfl | rfl | rfl := he
    · exact absurd hc List.not_mem_nil
    · rw [List.mem_singleton.mp hc]
      rfl
    · exact absurd hc List.not_mem_nil
  · rw [hworld₂, hevents, hnext]
    rfl

end Systeml.Bus
