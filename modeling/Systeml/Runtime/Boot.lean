import Systeml.Runtime.Discovery
import Systeml.Runtime.Replay

/-!
# From the file system to the started units

The daemon comes up by a reload into an empty registry and `activate_enabled_units`, all
under one lock of the manager. After that it knows the units that have a fragment of their
own and load; the timers, services, paths and sockets among them that are linked from a
`.wants/`, `.requires/` or `.upholds/` directory are started, services by one background
task each, and all others are inactive (`boot_activates`).
-/

namespace Systeml.Runtime

open Systeml.Lib Systeml.Unit Systeml.Deps

/-- `has_install_link`. -/
def hasInstallLink (e : Env) (fs : FileSystem) (n : UnitName) : Bool :=
  e.userSearchPaths.any (hasLinkIn fs n.filename)

/-- The kinds of unit that are started at boot; targets are not. -/
def isBootKind : UnitKind → Bool
  | .timer | .service | .path | .socket => true
  | _ => false

/-- The start that an event announces. -/
def UnitEvent.asksStart? : UnitEvent → Option UnitName
  | .jobNew _ u .start => some u
  | _ => none

/-- The units asked to start, in their order. -/
def startsAsked (m : Manager) : List UnitName := m.events.filterMap UnitEvent.asksStart?

namespace World

/-- One unit in the loop of `activate_enabled_units`. -/
def activateOne (linked : UnitName → Bool) (w : World) (name : UnitName) : World :=
  if !isBootKind name.kind then w
  else if w.mgr.isActive name then w
  else if !linked name then w
  else w.startUnit name

/-- `activate_enabled_units`. -/
def activateEnabledUnits (linked : UnitName → Bool) (w : World) : World :=
  w.mgr.units.keys.foldl (activateOne linked) w

variable {w w' : World} {n u : UnitName} {linked : UnitName → Bool}

/-! ## Starting units -/

/-- What a unit shows once it was asked to start. -/
def startedShown (k : UnitKind) : Shown :=
  if k = .service then (.activating, .start) else (.active, Manager.startedSub k)

/-- The unit is started if its turn comes. -/
def wanted (linked : UnitName → Bool) (w : World) (u : UnitName) : Bool :=
  isBootKind u.kind && !w.mgr.isActive u && linked u

/-- A service has its runner, and tasks can be put in flight. -/
structure Startup (w : World) (u : UnitName) : Prop where
  runner : u.kind = .service → ∃ r, w.mgr.services.get? u = some r ∧ HasRunner w r u
  selfWeak : w.mgr.selfWeak = true

theorem Startup.congr (h : Startup w u) (hs : w'.mgr.services = w.mgr.services)
    (hk : KeepsRunners w w') (hself : w'.mgr.selfWeak = w.mgr.selfWeak) : Startup w' u := by
  refine ⟨fun hu => ?_, hself.trans h.selfWeak⟩
  obtain ⟨r, hr, hrun⟩ := h.runner hu
  exact ⟨r, hs ▸ hr, hrun.kept hk⟩

theorem shown_markState (m : Manager) (n u : UnitName) (a : ActiveState) (s : SubState) :
    ((m.markState n a s).status.get? u).map UnitStatus.shown =
      if u = n then (m.status.get? u).map fun _ => (a, s)
      else (m.status.get? u).map UnitStatus.shown := by
  rw [Manager.markState_status]
  split
  · rw [Option.map_map]
    rfl
  · rfl

/-- What the start of a unit does: it is marked, a service gets a task, and the start is
announced. -/
theorem startUnit_spec (h : Startup w n) :
    (∀ u, ((w.startUnit n).mgr.status.get? u).map UnitStatus.shown =
      if u = n then (w.mgr.status.get? u).map fun _ => startedShown n.kind
      else (w.mgr.status.get? u).map UnitStatus.shown) ∧
    (w.startUnit n).tasks.map Task.unit =
      w.tasks.map Task.unit ++ (if n.kind = .service then [n] else []) ∧
    startsAsked (w.startUnit n).mgr = startsAsked w.mgr ++ [n] := by
  by_cases hk : n.kind = .service
  · obtain ⟨r, hr, R, hR, -⟩ := h.runner hk
    have hself : (w.mgr.newJob n .start).2.selfWeak = true := h.selfWeak
    simp only [startUnit, Manager.startUnit, if_pos hk, Manager.spawnServiceStart,
      Manager.newJob_services, hr, hself, if_true, Except.map, spawnTask, hR]
    refine ⟨fun u => ?_, ?_, ?_⟩
    · rw [shown_markState, startedShown, if_pos hk]
      rfl
    · rw [List.map_append]
      rfl
    · show (w.mgr.events ++ [_] ++ [_]).filterMap _ = _
      rw [List.filterMap_append, List.filterMap_append]
      exact List.append_nil _
  · simp only [startUnit, Manager.startUnit, if_neg hk]
    refine ⟨fun u => ?_, (List.append_nil _).symm, ?_⟩
    · show (((w.mgr.newJob n .start).2.markState n .active _).status.get? u).map _ = _
      rw [shown_markState, startedShown, if_neg hk]
      rfl
    · show (w.mgr.events ++ [_] ++ [_] ++ [_]).filterMap _ = _
      rw [List.filterMap_append, List.filterMap_append, List.filterMap_append]
      exact (List.append_nil _).trans (List.append_nil _)

theorem isActive_congr (h : (w'.mgr.status.get? u).map UnitStatus.shown =
    (w.mgr.status.get? u).map UnitStatus.shown) : w'.mgr.isActive u = w.mgr.isActive u := by
  have hactive : ∀ m : Manager, m.isActive u =
      ((m.status.get? u).map UnitStatus.shown).any fun x => x.1 = .active := by
    intro m
    unfold Manager.isActive
    cases m.status.get? u <;> rfl
  rw [hactive, hactive, h]

theorem activateOne_eq (linked : UnitName → Bool) (w : World) (n : UnitName) :
    activateOne linked w n = if wanted linked w n then w.startUnit n else w := by
  unfold activateOne wanted
  cases isBootKind n.kind <;> cases w.mgr.isActive n <;> cases linked n <;> rfl

/-- The loop of `activate_enabled_units`: the units that were to be started when it began,
each once. -/
theorem activate_foldl (linked : UnitName → Bool) : ∀ (ns : List UnitName) (w : World), ns.Nodup →
    (∀ u ∈ ns, Startup w u) → (∀ u, ((ns.foldl (activateOne linked) w).mgr.status.get? u).map UnitStatus.shown =
      if u ∈ ns ∧ wanted linked w u = true
      then (w.mgr.status.get? u).map fun _ => startedShown u.kind
      else (w.mgr.status.get? u).map UnitStatus.shown) ∧
    (ns.foldl (activateOne linked) w).tasks.map Task.unit = w.tasks.map Task.unit ++
      (ns.filter fun u => wanted linked w u && (u.kind = .service : Bool)) ∧
    startsAsked (ns.foldl (activateOne linked) w).mgr = startsAsked w.mgr ++
      ns.filter (wanted linked w) ∧
    SameRegistry w (ns.foldl (activateOne linked) w)
  | [], w, _, _ => by simp [SameRegistry.refl]
  | n :: ns, w, hnodup, hstart => by
    obtain ⟨hn, hns⟩ := List.nodup_cons.mp hnodup
    have hone := activateOne_eq linked w n
    have hspec := startUnit_spec (hstart n List.mem_cons_self)
    -- the other units are as they were
    have hothers : ∀ u, u ≠ n → ((activateOne linked w n).mgr.status.get? u).map UnitStatus.shown =
        (w.mgr.status.get? u).map UnitStatus.shown := by
      intro u hu
      rw [hone]
      split
      · rw [hspec.1, if_neg hu]
      · rfl
    have hwanted : ∀ u, u ≠ n → wanted linked (activateOne linked w n) u = wanted linked w u := by
      intro u hu
      unfold wanted
      rw [isActive_congr (hothers u hu)]
    have hready : ∀ u ∈ ns, Startup (activateOne linked w n) u := by
      intro u hu
      have hu' := hstart u (List.mem_cons_of_mem _ hu)
      rw [hone]
      split
      · have hreg := sameRegistry_startUnit w n
        exact hu'.congr hreg.services (keepsRunners_of_eq (sameHeap_startUnit w n).runners)
          hreg.selfWeak
      · exact hu'
    have hsame : SameRegistry w (activateOne linked w n) := by
      rw [hone]
      split
      · exact sameRegistry_startUnit w n
      · exact SameRegistry.refl w
    obtain ⟨hshown, htasks, hasked, hrest⟩ :=
      activate_foldl linked ns (activateOne linked w n) hns hready
    have hfilter : ns.filter (wanted linked (activateOne linked w n)) =
        ns.filter (wanted linked w) :=
      List.filter_congr fun u hu => hwanted u fun he => hn (he ▸ hu)
    rw [List.foldl_cons]
    refine ⟨fun u => ?_, ?_, ?_, hsame.trans hrest⟩
    · rw [hshown u]
      by_cases hu : u = n
      · subst hu
        rw [if_neg fun hh => hn hh.1, hone]
        by_cases hw : wanted linked w u = true
        · rw [if_pos hw, if_pos ⟨List.mem_cons_self, hw⟩, hspec.1, if_pos rfl]
        · rw [if_neg hw, if_neg fun hh => hw hh.2]
      · rw [hothers u hu, hwanted u hu]
        have hst : ((activateOne linked w n).mgr.status.get? u).map (fun _ => startedShown u.kind) =
            (w.mgr.status.get? u).map fun _ => startedShown u.kind := by
          have hmap := congrArg (Option.map fun _ : Shown => startedShown u.kind) (hothers u hu)
          rw [Option.map_map, Option.map_map] at hmap
          exact hmap
        rw [hst]
        simp [hu]
    · rw [htasks]
      have hfilter : (ns.filter fun u => wanted linked (activateOne linked w n) u &&
          (u.kind = .service : Bool)) =
          ns.filter fun u => wanted linked w u && (u.kind = .service : Bool) := by
        refine List.filter_congr fun u hu => ?_
        rw [hwanted u fun he => hn (he ▸ hu)]
      rw [hfilter, hone, List.filter_cons]
      by_cases hw : wanted linked w n = true
      · rw [if_pos hw, hspec.2.1, hw]
        by_cases hk : n.kind = .service
        · simp [hk]
        · simp [hk]
      · rw [if_neg hw]
        simp [hw]
    · rw [hasked, hfilter, hone, List.filter_cons]
      by_cases hw : wanted linked w n = true
      · rw [if_pos hw, if_pos hw, hspec.2.2, List.append_assoc, List.singleton_append]
      · rw [if_neg hw, if_neg hw]

/-! ## The first reload -/

/-- The units of a first reload that are in, all of them inactive. -/
structure LoadedUnits (ns : List UnitName) (w : World) : Prop where
  keys : w.mgr.units.keys = ns
  shown : ∀ u, (w.mgr.status.get? u).map UnitStatus.shown =
    if u ∈ ns then some (.inactive, .unset) else none
  services : ∀ u r, w.mgr.services.get? u = some r → u ∈ ns ∧ HasRunner w r u
  runners : ∀ u ∈ ns, u.kind = .service → ∃ r, w.mgr.services.get? u = some r
  tasks : w.tasks = []
  selfWeak : w.mgr.selfWeak = true

/-- A unit that is not in yet is put in by two steps. -/
theorem loadedUnits_entry {ns : List UnitName} {spec : UnitSpec} {rest : List ReloadOp}
    (h : LoadedUnits ns w) (hn : n ∉ ns) (hfits : spec.kind.Fits n.kind)
    (hl : w.lock = .reload (.unit n spec :: rest)) :
    ∃ v, runs call w (List.replicate 2 (.other .reloadStep)) = some v ∧
      LoadedUnits (ns ++ [n]) v ∧ v.lock = .reload rest := by
  have hservice : w.mgr.services.get? n = none := by
    cases hr : w.mgr.services.get? n with
    | none => rfl
    | some r => exact absurd (h.services n r hr).1 hn
  have hstatus : w.mgr.status.get? n = none := by
    have hshown := h.shown n
    rw [if_neg hn] at hshown
    exact Option.map_eq_none_iff.mp hshown
  have hunits : n ∉ w.mgr.units.keys := h.keys ▸ hn
  -- both steps change `status` at `n` only, and then put it in
  have hput : ∀ (new : Option RunnerId) (rs : List Runner),
      (new = none → n.kind ≠ .service) →
      (∀ r, new = some r → n.kind = .service ∧ ∃ R, rs[r]? = some R ∧ R.unit = n) →
      (∀ (r : RunnerId) R, w.runners[r]? = some R → rs[r]? = some R) →
      LoadedUnits (ns ++ [n]) { w with
        mgr := ({ w.mgr with status := w.mgr.status.erase n }).install n spec
          (reloadedStatus w.mgr n spec) new
        runners := rs
        lock := .reload rest } := by
    intro new rs hplain hnew hkeep
    refine ⟨?_, ?_, ?_, ?_, h.tasks, h.selfWeak⟩
    · show (w.mgr.units.insert n spec).keys = _
      rw [IndexMap.insert, IndexMap.keys_upsert, if_neg hunits, h.keys]
    · intro u
      show (((w.mgr.status.erase n).insert n _).get? u).map _ = _
      by_cases hu : u = n
      · subst hu
        rw [IndexMap.get?_insert_self, if_pos (by simp)]
        unfold reloadedStatus
        rw [hstatus]
        rfl
      · rw [IndexMap.get?_insert_ne hu, IndexMap.get?_erase_ne hu, h.shown u]
        simp [hu]
    · intro u r hr
      have hold : ∀ r', w.mgr.services.get? u = some r' → u ∈ ns ++ [n] ∧
          ∃ R, rs[r']? = some R ∧ R.unit = u := by
        intro r' hr'
        obtain ⟨hu, R, hR, hunit⟩ := h.services u r' hr'
        exact ⟨List.mem_append_left _ hu, R, hkeep r' R hR, hunit⟩
      cases new with
      | none => exact hold r hr
      | some q =>
        have hr' : (w.mgr.services.insert n q).get? u = some r := hr
        by_cases hu : u = n
        · subst hu
          rw [IndexMap.get?_insert_self] at hr'
          obtain rfl := Option.some.inj hr'
          exact ⟨by simp, (hnew q rfl).2⟩
        · rw [IndexMap.get?_insert_ne hu] at hr'
          exact hold r hr'
    · intro u hu hk
      cases new with
      | none =>
        obtain hu | hu := List.mem_append.mp hu
        · exact h.runners u hu hk
        · obtain rfl := List.mem_singleton.mp hu
          exact absurd hk (hplain rfl)
      | some q =>
        show ∃ r, (w.mgr.services.insert n q).get? u = some r
        by_cases hun : u = n
        · exact ⟨q, hun ▸ IndexMap.get?_insert_self _ _ _⟩
        · rw [IndexMap.get?_insert_ne hun]
          exact h.runners u ((List.mem_append.mp hu).resolve_right (by simpa using hun)) hk
  have hstep : ∀ v v', w.reloadOp rest (.unit n spec) = some v → v.reloadStep = some v' →
      runs call w (List.replicate 2 (.other .reloadStep)) = some v' := by
    intro v v' hv hv'
    refine runs_cons.mpr ⟨v, ?_, runs_cons.mpr ⟨v', hv', rfl⟩⟩
    show w.reloadStep = some v
    unfold reloadStep
    rw [hl]
    exact hv
  cases hk : spec.kind with
  | service svc =>
    have hkind : n.kind = .service := hfits.service_iff.mp ⟨svc, hk⟩
    refine ⟨_, hstep _ _ (by simp only [reloadOp, hk, hservice]; rfl) rfl,
      hput (some w.runners.length) (w.runners ++ [{ unit := n, svc := svc }]) (by simp) ?_ ?_, rfl⟩
    · rintro r hr
      obtain rfl := Option.some.inj hr
      exact ⟨hkind, { unit := n, svc := svc }, List.getElem?_concat_length, rfl⟩
    · intro r R hR
      exact (List.getElem?_append_left (List.getElem?_eq_some_iff.mp hR).1).trans hR
  | socket | timer | path | target | scope | other =>
    have hkind : n.kind ≠ .service := by
      intro he
      obtain ⟨svc, hsvc⟩ := hfits.service_iff.mpr he
      rw [hk] at hsvc
      exact absurd hsvc (by simp)
    exact ⟨_, hstep _ _ (by simp only [reloadOp, hk]; rfl) rfl,
      hput none w.runners (fun _ => hkind) (by simp) (fun _ _ hR => hR), rfl⟩

/-- All of them, and the reload ends. -/
theorem loadedUnits_entries : ∀ (l : List (UnitName × UnitSpec)) {ns : List UnitName} {w : World},
    LoadedUnits ns w → (ns ++ l.map Prod.fst).Nodup → (∀ x ∈ l, x.2.kind.Fits x.1.kind) →
    w.lock = .reload (l.map fun x => .unit x.1 x.2) →
    ∃ k v, runs call w (List.replicate k (.other .reloadStep)) = some v ∧
      LoadedUnits (ns ++ l.map Prod.fst) v ∧ v.lock = .free
  | [], ns, w, h, _, _, hl => by
    refine ⟨1, { w with lock := .free }, runs_cons.mpr ⟨_, ?_, rfl⟩, ?_, rfl⟩
    · show w.reloadStep = _
      unfold reloadStep
      rw [hl]
      rfl
    · rw [List.map_nil, List.append_nil]
      exact ⟨h.keys, h.shown, h.services, h.runners, h.tasks, h.selfWeak⟩
  | x :: l, ns, w, h, hnodup, hfits, hl => by
    have hx : x.1 ∉ ns := fun hm =>
      (List.nodup_append.mp hnodup).2.2 x.1 hm x.1 List.mem_cons_self rfl
    obtain ⟨v, hrun, hv, hlv⟩ := loadedUnits_entry h hx (hfits x List.mem_cons_self) hl
    have hnodup' : ((ns ++ [x.1]) ++ l.map Prod.fst).Nodup := by
      rw [List.append_assoc]
      exact hnodup
    obtain ⟨k, v', hrun', hv', hl'⟩ := loadedUnits_entries l hv hnodup'
      (fun y hy => hfits y (List.mem_cons_of_mem _ hy)) hlv
    refine ⟨2 + k, v', ?_, ?_, hl'⟩
    · rw [List.replicate_add]
      exact runs_append.mpr ⟨v, hrun, hrun'⟩
    · rw [List.append_assoc] at hv'
      exact hv'

/-- The first reload of a new manager ends, with the units that it found. -/
theorem loadedUnits_reload (paths : SearchPaths) : ∃ k w, runs call (newManager true)
      (.daemonReload paths :: List.replicate k (.other .reloadStep)) = some w ∧
    LoadedUnits (newUnits paths.disk).keys w ∧ w.lock = .free := by
  have hempty : LoadedUnits [] ((newManager true).daemonReload paths.disk) :=
    ⟨rfl, fun u => rfl, fun u r hr => absurd hr (by simp [daemonReload, newManager]),
      fun u hu => absurd hu List.not_mem_nil, rfl, rfl⟩
  obtain ⟨k, w, hrun, hw, hl⟩ := loadedUnits_entries (newUnits paths.disk).entries hempty
    (newUnits paths.disk).nodup (fun x hx => fits_newUnits hx) rfl
  exact ⟨k, w, runs_cons.mpr ⟨_, rfl, hrun⟩, hw, hl⟩

end World

/-! ## Boot -/

/-- What a reload scans. `load` is `load_unit_in` for the names of the scan. -/
def searchPaths (e : Env) (fs : FileSystem) (load : (n : UnitName) → Option (LoadedUnit n)) :
    SearchPaths :=
  (scan e fs).keys.map fun n => ⟨n, load n⟩

section Boot

variable {e : Env} {fs : FileSystem} {load : (n : UnitName) → Option (LoadedUnit n)} {u : UnitName}

/-- The unit has a fragment of its own, which loads as a unit that can be activated. -/
def Loads (e : Env) (fs : FileSystem) (load : (n : UnitName) → Option (LoadedUnit n))
    (u : UnitName) : Prop :=
  ReadsBack u ∧ (∃ p, locateFragment e fs u = some p) ∧
    ∃ lu, load u = some lu ∧ isActivatable lu.unit = true

theorem mem_newUnits_searchPaths :
    u ∈ (World.newUnits (searchPaths e fs load).disk).keys ↔ Loads e fs load u := by
  have hscan : u ∈ (scan e fs).keys ↔ ReadsBack u ∧ ∃ p, locateFragment e fs u = some p := by
    rw [IndexMap.mem_keys]
    simp only [scan_get?, exists_and_left]
  unfold World.newUnits
  rw [IndexMap.mem_keys_ofList]
  simp only [SearchPaths.disk, searchPaths, List.map_map, List.mem_map, List.mem_filterMap,
    Function.comp_apply]
  constructor
  · rintro ⟨x, ⟨_, ⟨n, hn, rfl⟩, hspec⟩, hx⟩
    cases hload : load n with
    | none => simp [hload] at hspec
    | some lu =>
      rw [hload] at hspec
      simp only [Option.map_some] at hspec
      split at hspec
      next hact =>
        obtain rfl := Option.some.inj hspec
        obtain rfl : n = u := hx
        exact ⟨(hscan.mp hn).1, (hscan.mp hn).2, lu, hload, hact⟩
      next => exact absurd hspec (by simp)
  · rintro ⟨hread, hfragment, lu, hload, hact⟩
    refine ⟨(u, lu.unit), ⟨_, ⟨u, hscan.mpr ⟨hread, hfragment⟩, rfl⟩, ?_⟩, rfl⟩
    simp [hload, hact]

/-- What the daemon has come up with. -/
structure Activated (e : Env) (fs : FileSystem) (load : (n : UnitName) → Option (LoadedUnit n))
    (w v : World) : Prop where
  /-- The starts asked for since the reload: one for each unit to be started. -/
  asked : ∃ us, startsAsked v.mgr = startsAsked w.mgr ++ us ∧ us.Nodup ∧ ∀ u, u ∈ us ↔
    Loads e fs load u ∧ isBootKind u.kind = true ∧ hasInstallLink e fs u = true
  started : ∀ u, Loads e fs load u → isBootKind u.kind = true → hasInstallLink e fs u = true →
    (v.mgr.status.get? u).map UnitStatus.shown = some (World.startedShown u.kind)
  inactive : ∀ u, Loads e fs load u →
    ¬ (isBootKind u.kind = true ∧ hasInstallLink e fs u = true) →
    (v.mgr.status.get? u).map UnitStatus.shown = some (.inactive, .unset)
  unknown : ∀ u, ¬ Loads e fs load u → v.mgr.status.get? u = none
  /-- One start is in flight for each service that was started, and nothing else. -/
  tasks : (v.tasks.map Task.unit).Nodup ∧ ∀ u, u ∈ v.tasks.map Task.unit ↔
    Loads e fs load u ∧ u.kind = .service ∧ hasInstallLink e fs u = true
  /-- Nothing is put into the registry or taken out. -/
  registry : v.mgr.units = w.mgr.units ∧ v.mgr.services = w.mgr.services ∧
    v.mgr.status.keys = w.mgr.status.keys

/-- What `activate_enabled_units` makes of the units of a first reload. -/
theorem activated_of_loadedUnits {w : World}
    (hw : World.LoadedUnits (World.newUnits (searchPaths e fs load).disk).keys w) :
    Activated e fs load w (w.activateEnabledUnits (hasInstallLink e fs)) := by
  have hkeys : ∀ u, u ∈ w.mgr.units.keys ↔ Loads e fs load u := fun u => by
    rw [hw.keys, mem_newUnits_searchPaths]
  have hshown : ∀ u, (w.mgr.status.get? u).map UnitStatus.shown =
      if u ∈ w.mgr.units.keys then some (.inactive, .unset) else none := hw.keys ▸ hw.shown
  have hinactive : ∀ u, w.mgr.isActive u = false := by
    intro u
    have hu := hshown u
    unfold Manager.isActive
    cases hst : w.mgr.status.get? u with
    | none => rfl
    | some st =>
      rw [hst] at hu
      split at hu
      · have hactive := congrArg Prod.fst (Option.some.inj hu)
        simp only [UnitStatus.shown] at hactive
        simp [hactive]
      · exact absurd hu (by simp)
  have hwanted : ∀ u, World.wanted (hasInstallLink e fs) w u =
      (isBootKind u.kind && hasInstallLink e fs u) := by
    intro u
    unfold World.wanted
    rw [hinactive, Bool.not_false, Bool.and_true]
  have hstart : ∀ u ∈ w.mgr.units.keys, World.Startup w u := by
    intro u hu
    refine ⟨fun hk => ?_, hw.selfWeak⟩
    obtain ⟨r, hr⟩ := hw.runners u (hw.keys ▸ hu) hk
    exact ⟨r, hr, (hw.services u r hr).2⟩
  obtain ⟨hstatus, htasks, hasked, hsame⟩ := World.activate_foldl (hasInstallLink e fs)
    w.mgr.units.keys w w.mgr.units.keys_nodup hstart
  refine ⟨⟨_, hasked, w.mgr.units.keys_nodup.filter _, fun u => ?_⟩, ?_, ?_, ?_, ?_,
    ⟨hsame.units, hsame.services, hsame.keys⟩⟩
  · rw [List.mem_filter, hkeys, hwanted, Bool.and_eq_true]
  · intro u hu hkind hlink
    have hmem := (hkeys u).mpr hu
    have hin := hshown u
    rw [if_pos hmem] at hin
    obtain ⟨st, hst, -⟩ := Option.map_eq_some_iff.mp hin
    refine (hstatus u).trans ?_
    rw [if_pos ⟨hmem, by rw [hwanted, hkind, hlink]; rfl⟩, hst]
    rfl
  · intro u hu hno
    refine (hstatus u).trans ?_
    rw [if_neg, hshown u, if_pos ((hkeys u).mpr hu)]
    rintro ⟨-, hwant⟩
    rw [hwanted, Bool.and_eq_true] at hwant
    exact hno hwant
  · intro u hu
    have hmem : u ∉ w.mgr.units.keys := fun hm => hu ((hkeys u).mp hm)
    have hnone := hstatus u
    rw [if_neg fun hh => hmem hh.1, hshown u, if_neg hmem] at hnone
    exact Option.map_eq_none_iff.mp hnone
  · unfold World.activateEnabledUnits
    rw [htasks, hw.tasks, List.map_nil, List.nil_append]
    refine ⟨w.mgr.units.keys_nodup.filter _, fun u => ?_⟩
    rw [List.mem_filter, hkeys, hwanted]
    constructor
    · rintro ⟨hu, hwant⟩
      simp only [Bool.and_eq_true, decide_eq_true_eq] at hwant
      exact ⟨hu, hwant.2, hwant.1.2⟩
    · rintro ⟨hu, hk, hlink⟩
      exact ⟨hu, by simp [hk, hlink, isBootKind]⟩

/-- **Boot starts what is enabled.** The first reload ends, and then exactly the loaded
units of a kind that is started at boot are started that are linked. -/
theorem boot_activates (e : Env) (fs : FileSystem)
    (load : (n : UnitName) → Option (LoadedUnit n)) :
    ∃ k w, runs World.call (World.newManager true)
        (.daemonReload (searchPaths e fs load) :: List.replicate k (.other .reloadStep)) = some w ∧
      w.lock = .free ∧ Activated e fs load w (w.activateEnabledUnits (hasInstallLink e fs)) := by
  obtain ⟨k, w, hrun, hw, hl⟩ := World.loadedUnits_reload (searchPaths e fs load)
  exact ⟨k, w, hrun, hl, activated_of_loadedUnits hw⟩

end Boot

end Systeml.Runtime
