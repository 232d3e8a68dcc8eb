import Systeml.Runtime.Frame

/-!
# The registry over loads and reloads

`units`, `status` and `services` are updated by different loops of `daemon_reload`.
The loop over what is gone from the search paths leaves `units` as it is, so a
removed unit stays there without a status, and is reported again by every reload.

`registryOk_iff`: over any run of inserts, reloads and other steps the three maps
agree, hold what the last reload loaded, and each removal is reported once, exactly
when no reload misses a unit that is in `units`.
-/

namespace Systeml.Unit

/-- The data of a unit is of the kind that `Unit::empty` chooses by its name; parsing
and drop-ins keep it. -/
def UnitTypeData.Fits (k : UnitKind) : UnitTypeData → Prop
  | .service _ => k = .service
  | .socket _ => k = .socket
  | .timer _ => k = .timer
  | .path _ => k = .path
  | .target => k = .target
  | .scope => k = .scope
  | .other => k ≠ .service ∧ k ≠ .socket ∧ k ≠ .timer ∧ k ≠ .path ∧ k ≠ .target ∧ k ≠ .scope

theorem fits_empty (n : UnitName) : (UnitSpec.empty n).kind.Fits n.kind := by
  unfold UnitSpec.empty
  cases h : n.kind <;> simp [UnitTypeData.Fits]

theorem UnitTypeData.Fits.service_iff {k : UnitKind} {d : UnitTypeData} (h : d.Fits k) :
    (∃ svc, d = .service svc) ↔ k = .service := by
  cases d <;> simp_all [UnitTypeData.Fits]

/-- What `load_unit_in` returns for a name. -/
structure LoadedUnit (name : UnitName) where
  unit : UnitSpec
  fits : unit.kind.Fits name.kind

end Systeml.Unit

namespace Systeml.Runtime

open Systeml.Lib Systeml.Unit Systeml.Deps

/-- The content of the search paths: the names there, with what loads. -/
abbrev SearchPaths := List (Σ name : UnitName, Option (LoadedUnit name))

/-- As a reload scans it. -/
def SearchPaths.disk (paths : SearchPaths) : Disk :=
  paths.map fun e => (e.1, e.2.map LoadedUnit.unit)

/-- A call on the manager, or a step of what is in flight. -/
inductive Call where
  | insertLoaded (name : UnitName) (lu : LoadedUnit name)
  | daemonReload (paths : SearchPaths)
  | other (l : Label)

namespace World

variable {w w' : World}

/-- `insert_loaded`. -/
def insertLoaded (w : World) (name : UnitName) (lu : LoadedUnit name) : World :=
  let st : UnitStatus :=
    { unit := some name, load := .loaded, active := .inactive, sub := .dead
      description := lu.unit.description }
  let w : World := match lu.unit.kind with
    | .service svc => { w with
      mgr := { w.mgr with services := w.mgr.services.insert name w.runners.length }
      runners := w.runners ++ [{ unit := name, svc := svc }] }
    | _ => w
  { w with mgr := { w.mgr with
    units := w.mgr.units.insert name lu.unit
    status := w.mgr.status.insert name st }.emit (.unitNew name) }

/-- One call or step. -/
def call (w : World) : Call → Option World
  | .insertLoaded name lu => w.ifFree (w.insertLoaded name lu)
  | .daemonReload paths => w.step (.daemonReload paths.disk)
  | .other (.daemonReload _) => none
  | .other l => w.step l

end World

/-- The maps of the manager agree: a status for every unit, a runner for every
service, and no more. -/
structure Manager.Coherent (m : Manager) : Prop where
  status : ∀ u, u ∈ m.status.keys ↔ u ∈ m.units.keys
  services : ∀ u, u ∈ m.services.keys ↔ u ∈ m.units.keys ∧ u.kind = .service

/-- How often the unit was reported as removed. -/
def Manager.removals (m : Manager) (u : UnitName) : Nat := m.events.count (.unitRemoved u)

/-! ## Steps of a reload -/

/-- The step copies what a runner holds to its successor. -/
def ReloadOp.isCopy : ReloadOp → Bool
  | .copyState .. | .copySub .. | .copyPid .. | .moveChild .. => true
  | .unit .. | .install .. => false

/-- The unit that a step has still to put into the registry. -/
def ReloadOp.name? : ReloadOp → Option UnitName
  | .unit n _ | .install n _ _ _ => some n
  | _ => none

/-- The step puts in the runner that the unit is to have. -/
def ReloadOp.Fits : ReloadOp → Prop
  | .unit n spec => spec.kind.Fits n.kind
  | .install n _ _ new => new.isSome = true ↔ n.kind = .service
  | _ => True

theorem fits_of_isCopy {op : ReloadOp} (h : op.isCopy = true) : op.Fits := by
  cases op with
  | unit n spec | install n spec st new => exact absurd h (by simp [ReloadOp.isCopy])
  | _ => trivial

theorem name?_of_isCopy {op : ReloadOp} (h : op.isCopy = true) : op.name? = none := by
  cases op with
  | unit n spec | install n spec st new => exact absurd h (by simp [ReloadOp.isCopy])
  | _ => rfl

/-- The manager after a unit was put into the registry. -/
def Manager.install (m : Manager) (name : UnitName) (spec : UnitSpec) (st : UnitStatus)
    (new : Option RunnerId) : Manager :=
  { m with
    services := match new with
      | some r => m.services.insert name r
      | none => m.services
    units := m.units.insert name spec
    status := m.status.insert name st }.emit (.unitNew name)

namespace World

variable {w w' : World}

/-- One step of a reload on the registry: the status of a unit is taken out, something
is copied between runners, or a unit is put in. -/
theorem reloadOp_cases {rest : List ReloadOp} {op : ReloadOp} (h : w.reloadOp rest op = some w') :
    (∃ n spec copies st new, op = .unit n spec ∧ (∀ c ∈ copies, ReloadOp.isCopy c = true) ∧
      (new.isSome = true ↔ ∃ svc, spec.kind = .service svc) ∧
      w'.mgr = { w.mgr with status := w.mgr.status.erase n } ∧
      w'.lock = .reload (copies ++ .install n spec st new :: rest)) ∨
    (op.isCopy = true ∧ w'.mgr = w.mgr ∧ w'.lock = .reload rest) ∨
    ∃ n spec st new, op = .install n spec st new ∧ w'.mgr = w.mgr.install n spec st new ∧
      w'.lock = .reload rest := by
  cases op with
  | unit n spec =>
    simp only [reloadOp] at h
    split at h
    next svc hk =>
      obtain rfl := Option.some.inj h
      refine Or.inl ⟨n, spec, _, _, some _, rfl, ?_, ?_, rfl, rfl⟩
      · intro c hc
        cases hold : w.mgr.services.get? n with
        | none =>
          rw [hold] at hc
          exact absurd hc (by simp)
        | some old =>
          rw [hold] at hc
          simp only [List.mem_cons, List.not_mem_nil, or_false] at hc
          rcases hc with rfl | rfl | rfl | rfl <;> rfl
      · exact ⟨fun _ => ⟨svc, hk⟩, fun _ => rfl⟩
    next hk =>
      obtain rfl := Option.some.inj h
      refine Or.inl ⟨n, spec, [], _, none, rfl, by simp, ?_, rfl, rfl⟩
      refine ⟨fun h => absurd h (by simp), ?_⟩
      intro h
      obtain ⟨svc, hs⟩ := h
      exact absurd hs (hk svc)
  | copyState new old | copySub new old | copyPid new old =>
    simp only [reloadOp] at h
    split at h
    · obtain rfl := Option.some.inj h
      exact Or.inr (Or.inl ⟨rfl, rfl, rfl⟩)
    · exact absurd h (by simp)
  | moveChild new old =>
    simp only [reloadOp] at h
    split at h
    · split at h
      · exact absurd h (by simp)
      · obtain rfl := Option.some.inj h
        exact Or.inr (Or.inl ⟨rfl, rfl, rfl⟩)
    · exact absurd h (by simp)
  | install n spec st new =>
    obtain rfl := Option.some.inj h
    exact Or.inr (Or.inr ⟨n, spec, st, new, rfl, rfl, rfl⟩)

theorem call_cases {c : Call} (h : w.call c = some w') :
    (∃ name lu, c = .insertLoaded name lu ∧ w.lock = .free ∧ w' = w.insertLoaded name lu) ∨
    (∃ paths, c = .daemonReload paths ∧ w.lock = .free ∧ w' = w.daemonReload paths.disk) ∨
    (c = .other .reloadStep ∧ w.reloadStep = some w') ∨
    ∃ l, c = .other l ∧ SameRegistry w w' ∧ w'.reloading = w.reloading := by
  cases c with
  | insertLoaded name lu =>
    obtain ⟨hl, rfl⟩ := ifFree_eq h
    exact Or.inl ⟨name, lu, rfl, hl, rfl⟩
  | daemonReload paths =>
    obtain ⟨hl, rfl⟩ := ifFree_eq h
    exact Or.inr (Or.inl ⟨paths, rfl, hl, rfl⟩)
  | other l =>
    by_cases hr : l = .reloadStep
    · subst hr
      exact Or.inr (Or.inr (Or.inl ⟨rfl, h⟩))
    · have hd : ∀ disk, l ≠ .daemonReload disk := by
        rintro disk rfl
        exact absurd h (by simp [call])
      have hs : w.step l = some w' := by
        cases l with
        | daemonReload disk => exact absurd rfl (hd disk)
        | _ => exact h
      exact Or.inr (Or.inr (Or.inr ⟨l, rfl, sameRegistry_step hs hd hr, reloading_step hs hd hr⟩))

/-! ## What is gone -/

/-- Dropping units takes them out of `status` and `services`, and reports each. -/
theorem foldl_dropUnit : ∀ (l : List UnitName) (m : Manager),
    (l.foldl dropUnit m).units = m.units ∧
    (∀ u, u ∈ (l.foldl dropUnit m).status.keys ↔ u ∉ l ∧ u ∈ m.status.keys) ∧
    (∀ u, u ∈ (l.foldl dropUnit m).services.keys ↔ u ∉ l ∧ u ∈ m.services.keys) ∧
    (l.foldl dropUnit m).events = m.events ++ l.map .unitRemoved
  | [], m => by simp
  | n :: l, m => by
    obtain ⟨hunits, hstatus, hservices, hevents⟩ := foldl_dropUnit l (dropUnit m n)
    refine ⟨hunits, ?_, ?_, ?_⟩
    · intro u
      rw [List.foldl_cons, hstatus]
      show u ∉ l ∧ u ∈ (m.status.erase n).keys ↔ _
      rw [IndexMap.mem_keys_erase, List.mem_cons, not_or]
      tauto
    · intro u
      rw [List.foldl_cons, hservices]
      show u ∉ l ∧ u ∈ (m.services.erase n).keys ↔ _
      rw [IndexMap.mem_keys_erase, List.mem_cons, not_or]
      tauto
    · rw [List.foldl_cons, hevents]
      show (m.events ++ [.unitRemoved n]) ++ l.map .unitRemoved = _
      rw [List.append_assoc]
      rfl

/-- and leaves the runners of the others. -/
theorem foldl_dropUnit_services {u : UnitName} {r : RunnerId} : ∀ (l : List UnitName) (m : Manager),
    (l.foldl dropUnit m).services.get? u = some r → m.services.get? u = some r
  | [], _, h => h
  | n :: l, m, h => by
    have herase : (m.services.erase n).get? u = some r := foldl_dropUnit_services l (dropUnit m n) h
    by_cases hn : u = n
    · subst hn
      rw [IndexMap.get?_erase_self] at herase
      exact absurd herase (by simp)
    · exact (IndexMap.get?_erase_ne hn _).symm.trans herase

/-- The units that a reload finds gone. -/
def gone (w : World) (disk : Disk) : List UnitName :=
  w.mgr.units.keys.filter fun n => !(newUnits disk).contains n

theorem mem_gone {disk : Disk} {u : UnitName} :
    u ∈ gone w disk ↔ u ∈ w.mgr.units.keys ∧ u ∉ (newUnits disk).keys := by
  unfold gone
  rw [List.mem_filter, Bool.not_eq_true', ← Bool.not_eq_true, IndexMap.contains_iff]

theorem daemonReload_mgr (w : World) (disk : Disk) :
    (w.daemonReload disk).mgr = (gone w disk).foldl dropUnit w.mgr := rfl

/-- A reload finds every unit of `units`. -/
def NothingGone (w : World) (c : Call) : Prop :=
  ∀ paths, c = .daemonReload paths → gone w paths.disk = []

/-! ## Between the loops -/

/-- A reload is just putting the unit in. -/
def Installing (w : World) (u : UnitName) : Prop :=
  ∃ ops spec st new, w.reloading = some ops ∧ ReloadOp.install u spec st new ∈ ops

/-- The maps agree, but for the status of the unit that a reload is just putting in. -/
structure NearlyCoherent (w : World) : Prop where
  status : ∀ u, ¬ Installing w u → (u ∈ w.mgr.status.keys ↔ u ∈ w.mgr.units.keys)
  services : ∀ u, u ∈ w.mgr.services.keys ↔ u ∈ w.mgr.units.keys ∧ u.kind = .service
  fits : ∀ ops, w.reloading = some ops → ∀ op ∈ ops, op.Fits

theorem not_installing_of_idle (h : w.reloading = none) (u : UnitName) : ¬ Installing w u := by
  intro ⟨ops, _, _, _, hops, _⟩
  rw [h] at hops
  exact absurd hops (by simp)

theorem NearlyCoherent.coherent (h : NearlyCoherent w) (hidle : w.reloading = none) :
    w.mgr.Coherent :=
  ⟨fun u => h.status u (not_installing_of_idle hidle u), h.services⟩

theorem nearlyCoherent_of_coherent (h : w.mgr.Coherent) (hidle : w.reloading = none) :
    NearlyCoherent w :=
  ⟨fun u _ => h.status u, h.services, fun ops hops => by
    rw [hidle] at hops
    exact absurd hops (by simp)⟩

theorem mem_keys_install {m : Manager} {n u : UnitName} {spec : UnitSpec} {st : UnitStatus}
    {new : Option RunnerId} : (u ∈ (m.install n spec st new).units.keys ↔ u = n ∨ u ∈ m.units.keys) ∧
      (u ∈ (m.install n spec st new).status.keys ↔ u = n ∨ u ∈ m.status.keys) :=
  ⟨IndexMap.mem_keys_insert, IndexMap.mem_keys_insert⟩

theorem mem_services_install {m : Manager} {n u : UnitName} {spec : UnitSpec} {st : UnitStatus}
    {new : Option RunnerId} : u ∈ (m.install n spec st new).services.keys ↔
      (u = n ∧ new.isSome = true) ∨ u ∈ m.services.keys := by
  cases new with
  | none =>
    show u ∈ m.services.keys ↔ _
    simp
  | some r =>
    show u ∈ (m.services.insert n r).keys ↔ _
    rw [IndexMap.mem_keys_insert]
    simp

theorem nearlyCoherent_reloadOp {rest : List ReloadOp} {op : ReloadOp} (h : NearlyCoherent w)
    (hl : w.lock = .reload (op :: rest)) (hs : w.reloadOp rest op = some w') :
    NearlyCoherent w' := by
  have hops := reloading_of_lock hl
  have hfits := h.fits _ hops
  rcases reloadOp_cases hs with ⟨n, spec, copies, st, new, rfl, hcopy, hnew, hm, hl'⟩ |
    ⟨hcopy, hm, hl'⟩ | ⟨n, spec, st, new, rfl, hm, hl'⟩
  · have hops' := reloading_of_lock hl'
    refine ⟨?_, ?_, ?_⟩
    · intro u hu
      -- `n` is being installed now, and every other unit that was still is
      have hn : u ≠ n := by
        rintro rfl
        exact hu ⟨_, spec, st, new, hops', by simp⟩
      have hold : ¬ Installing w u := by
        intro ⟨ops, spec', st', new', ho, hmem⟩
        obtain rfl := Option.some.inj (hops.symm.trans ho)
        have hrest : ReloadOp.install u spec' st' new' ∈ rest := by simpa using hmem
        exact hu ⟨_, spec', st', new', hops', by simp [hrest]⟩
      rw [hm]
      show u ∈ (w.mgr.status.erase n).keys ↔ _
      rw [IndexMap.mem_keys_erase, h.status u hold]
      exact ⟨fun hh => hh.2, fun hh => ⟨hn, hh⟩⟩
    · intro u
      rw [hm]
      exact h.services u
    · intro ops ho op hop
      obtain rfl := Option.some.inj (hops'.symm.trans ho)
      rcases List.mem_append.mp hop with hop | hop
      · exact fits_of_isCopy (hcopy op hop)
      · rcases List.mem_cons.mp hop with rfl | hop
        · exact hnew.trans (hfits (.unit n spec) List.mem_cons_self).service_iff
        · exact hfits op (List.mem_cons_of_mem _ hop)
  · have hops' := reloading_of_lock hl'
    refine ⟨?_, ?_, ?_⟩
    · intro u hu
      rw [hm]
      refine h.status u ?_
      intro ⟨ops, spec, st, new, ho, hmem⟩
      obtain rfl := Option.some.inj (hops.symm.trans ho)
      rcases List.mem_cons.mp hmem with rfl | hmem
      · exact absurd hcopy (by simp [ReloadOp.isCopy])
      · exact hu ⟨rest, spec, st, new, hops', hmem⟩
    · intro u
      rw [hm]
      exact h.services u
    · intro ops ho op' hop
      obtain rfl := Option.some.inj (hops'.symm.trans ho)
      exact hfits op' (List.mem_cons_of_mem _ hop)
  · have hops' := reloading_of_lock hl'
    refine ⟨?_, ?_, ?_⟩
    · intro u hu
      rw [hm, mem_keys_install.1, mem_keys_install.2]
      by_cases hn : u = n
      · exact ⟨fun _ => Or.inl hn, fun _ => Or.inl hn⟩
      · refine or_congr_right (h.status u ?_)
        intro ⟨ops, spec', st', new', ho, hmem⟩
        obtain rfl := Option.some.inj (hops.symm.trans ho)
        rcases List.mem_cons.mp hmem with he | hmem
        · exact hn (ReloadOp.install.inj he).1
        · exact hu ⟨rest, spec', st', new', hops', hmem⟩
    · intro u
      have hnew : new.isSome = true ↔ n.kind = .service :=
        hfits (.install n spec st new) List.mem_cons_self
      rw [hm, mem_services_install, mem_keys_install.1, h.services u, hnew]
      constructor
      · rintro (⟨rfl, hk⟩ | ⟨hu, hk⟩)
        · exact ⟨Or.inl rfl, hk⟩
        · exact ⟨Or.inr hu, hk⟩
      · rintro ⟨rfl | hu, hk⟩
        · exact Or.inl ⟨rfl, hk⟩
        · exact Or.inr ⟨hu, hk⟩
    · intro ops ho op' hop
      obtain rfl := Option.some.inj (hops'.symm.trans ho)
      exact hfits op' (List.mem_cons_of_mem _ hop)

theorem fits_newUnits {paths : SearchPaths} {n : UnitName} {spec : UnitSpec}
    (h : (n, spec) ∈ (newUnits paths.disk).entries) : spec.kind.Fits n.kind := by
  obtain ⟨⟨m, o⟩, hm, ho⟩ := List.mem_filterMap.mp
    (IndexMap.mem_of_get?_ofList (IndexMap.mem_entries.mp h))
  obtain ⟨⟨m', o'⟩, -, he⟩ := List.mem_map.mp hm
  obtain ⟨rfl, rfl⟩ := Prod.mk.inj he
  cases o' with
  | none => exact absurd ho (by simp)
  | some lu =>
    simp only [Option.map_some] at ho
    split at ho
    · obtain ⟨rfl, rfl⟩ := Prod.mk.inj (Option.some.inj ho)
      exact lu.fits
    · exact absurd ho (by simp)

theorem coherent_insertLoaded {name : UnitName} {lu : LoadedUnit name} (h : w.mgr.Coherent) :
    (w.insertLoaded name lu).mgr.Coherent := by
  have hservice := lu.fits.service_iff
  have hstatus : ∀ {m : Manager} {spec : UnitSpec} {st : UnitStatus}, m.units = w.mgr.units →
      m.status = w.mgr.status → ∀ u, u ∈ (m.status.insert name st).keys ↔
        u ∈ (m.units.insert name spec).keys := by
    intro m spec st hunits hst u
    rw [IndexMap.mem_keys_insert, IndexMap.mem_keys_insert, hunits, hst, h.status u]
  unfold insertLoaded
  split
  next svc hk =>
    have hname := hservice.mp ⟨svc, hk⟩
    refine ⟨hstatus (m := { w.mgr with services := _ }) rfl rfl, ?_⟩
    intro u
    show u ∈ (w.mgr.services.insert name _).keys ↔ u ∈ (w.mgr.units.insert name _).keys ∧ _
    rw [IndexMap.mem_keys_insert, IndexMap.mem_keys_insert, h.services u]
    constructor
    · rintro (rfl | ⟨hu, hkind⟩)
      · exact ⟨Or.inl rfl, hname⟩
      · exact ⟨Or.inr hu, hkind⟩
    · rintro ⟨rfl | hu, hkind⟩
      · exact Or.inl rfl
      · exact Or.inr ⟨hu, hkind⟩
  next hk =>
    refine ⟨hstatus rfl rfl, ?_⟩
    intro u
    show u ∈ w.mgr.services.keys ↔ u ∈ (w.mgr.units.insert name _).keys ∧ _
    rw [IndexMap.mem_keys_insert, h.services u]
    refine ⟨fun ⟨hu, hkind⟩ => ⟨Or.inr hu, hkind⟩, ?_⟩
    rintro ⟨rfl | hu, hkind⟩
    · obtain ⟨svc, he⟩ := hservice.mpr hkind
      exact absurd he (hk svc)
    · exact ⟨hu, hkind⟩

theorem insertLoaded_lock (w : World) (name : UnitName) (lu : LoadedUnit name) :
    (w.insertLoaded name lu).lock = w.lock := by
  unfold insertLoaded
  split <;> rfl

theorem nearlyCoherent_call {c : Call} (h : NearlyCoherent w) (hok : NothingGone w c)
    (hs : w.call c = some w') : NearlyCoherent w' := by
  rcases call_cases hs with ⟨name, lu, rfl, hl, rfl⟩ | ⟨paths, rfl, hl, rfl⟩ | ⟨rfl, hr⟩ |
    ⟨l, rfl, hreg, hre⟩
  · exact nearlyCoherent_of_coherent
      (coherent_insertLoaded (h.coherent (reloading_of_free hl)))
      (reloading_of_free ((insertLoaded_lock w name lu).trans hl))
  · have hc := h.coherent (reloading_of_free hl)
    have hm : (w.daemonReload paths.disk).mgr = w.mgr := by
      rw [daemonReload_mgr, hok paths rfl]
      rfl
    refine ⟨fun u _ => hm ▸ hc.status u, fun u => hm ▸ hc.services u, ?_⟩
    intro ops hops op hop
    obtain rfl := Option.some.inj ((reloading_of_lock rfl).symm.trans hops)
    obtain ⟨e, he, rfl⟩ := List.mem_map.mp hop
    exact fits_newUnits he
  · rcases reloadStep_cases hr with ⟨hl, rfl⟩ | ⟨op, rest, hl, ho⟩
    · refine nearlyCoherent_of_coherent ⟨fun u => h.status u ?_, h.services⟩ rfl
      intro ⟨ops, _, _, _, hops, hmem⟩
      obtain rfl := Option.some.inj ((reloading_of_lock hl).symm.trans hops)
      exact absurd hmem (by simp)
    · exact nearlyCoherent_reloadOp h hl ho
  · refine ⟨fun u hu => ?_, fun u => ?_, fun ops hops => h.fits ops (hre ▸ hops)⟩
    · rw [hreg.keys, hreg.units]
      refine h.status u ?_
      intro ⟨ops, spec, st, new, hops, hmem⟩
      exact hu ⟨ops, spec, st, new, hre.trans hops, hmem⟩
    · rw [hreg.services, hreg.units]
      exact h.services u

/-! ## What is registered -/

/-- What has a status or a runner is in `units`. -/
def Registered (w : World) : Prop :=
  ∀ u, u ∈ w.mgr.status.keys ∨ u ∈ w.mgr.services.keys → u ∈ w.mgr.units.keys

theorem registered_call {c : Call} (h : Registered w) (hs : w.call c = some w') :
    Registered w' := by
  obtain ⟨name, lu, rfl, -, rfl⟩ | ⟨paths, rfl, -, rfl⟩ | ⟨rfl, hr⟩ | ⟨l, rfl, hreg, -⟩ :=
    call_cases hs
  · intro u hu
    have hkeys : ∀ m : Manager, m.units = w.mgr.units → m.status = w.mgr.status →
        (u ∈ m.services.keys → u = name ∨ u ∈ w.mgr.services.keys) →
        u ∈ (m.status.insert name
          { unit := some name, load := .loaded, active := .inactive, sub := .dead
            description := lu.unit.description : UnitStatus }).keys ∨ u ∈ m.services.keys →
        u ∈ (m.units.insert name lu.unit).keys := by
      intro m hunits hstatus hservices hu
      rw [hunits, IndexMap.mem_keys_insert]
      rw [hstatus, IndexMap.mem_keys_insert] at hu
      cases hu with
      | inl hu => exact hu.imp_right fun hu => h u (Or.inl hu)
      | inr hu => exact (hservices hu).imp_right fun hu => h u (Or.inr hu)
    unfold insertLoaded at hu ⊢
    split at hu
    next svc _ =>
      refine hkeys { w.mgr with services := w.mgr.services.insert name w.runners.length } rfl rfl
        ?_ hu
      exact fun hu => IndexMap.mem_keys_insert.mp hu
    next => exact hkeys w.mgr rfl rfl Or.inr hu
  · intro u hu
    obtain ⟨hunits, hstatus, hservices, -⟩ := foldl_dropUnit (gone w paths.disk) w.mgr
    rw [daemonReload_mgr] at hu ⊢
    rw [hunits]
    rw [hstatus, hservices] at hu
    exact h u (hu.imp And.right And.right)
  · obtain ⟨-, rfl⟩ | ⟨op, rest, -, ho⟩ := reloadStep_cases hr
    · exact h
    · obtain ⟨n, spec, copies, st, new, rfl, -, -, hm, -⟩ | ⟨-, hm, -⟩ |
        ⟨n, spec, st, new, rfl, hm, -⟩ := reloadOp_cases ho
      · intro u hu
        rw [hm] at hu ⊢
        exact h u (hu.imp_left fun hu => (IndexMap.mem_keys_erase.mp hu).2)
      · intro u hu
        rw [hm] at hu ⊢
        exact h u hu
      · intro u hu
        rw [hm, mem_keys_install.2, mem_services_install] at hu
        rw [hm, mem_keys_install.1]
        obtain (hu | hu) | ⟨hu, -⟩ | hu := hu
        · exact Or.inl hu
        · exact Or.inr (h u (Or.inl hu))
        · exact Or.inl hu
        · exact Or.inr (h u (Or.inr hu))
  · intro u hu
    rw [hreg.keys, hreg.services] at hu
    rw [hreg.units]
    exact h u hu

/-! ## Through a reload -/

/-- The names that the steps have still to put into the registry. -/
def pendingNames (ops : List ReloadOp) : List UnitName := ops.filterMap ReloadOp.name?

theorem pendingNames_copies {copies rest : List ReloadOp}
    (h : ∀ c ∈ copies, ReloadOp.isCopy c = true) :
    pendingNames (copies ++ rest) = pendingNames rest := by
  unfold pendingNames
  rw [List.filterMap_append, List.filterMap_eq_nil_iff.mpr fun c hc => name?_of_isCopy (h c hc),
    List.nil_append]

/-- What one step of a reload does to the pending names: it puts one in, or keeps all of
them pending. -/
structure PutsIn (w w' : World) (names names' : List UnitName) : Prop where
  all : ∀ u, u ∈ w'.mgr.units.keys ∨ u ∈ names' ↔ u ∈ w.mgr.units.keys ∨ u ∈ names
  units : ∀ u, u ∈ w.mgr.units.keys → u ∈ w'.mgr.units.keys
  status : ∀ u, u ∈ w'.mgr.status.keys → u ∈ w.mgr.status.keys ∨ u ∈ names
  pending : ∀ u, u ∈ names' → u ∈ names
  removals : ∀ u, w'.mgr.removals u = w.mgr.removals u

theorem reloadOp_putsIn {rest : List ReloadOp} {op : ReloadOp} (hs : w.reloadOp rest op = some w') :
    ∃ ops', w'.reloading = some ops' ∧ PutsIn w w' (pendingNames (op :: rest)) (pendingNames ops') := by
  rcases reloadOp_cases hs with ⟨n, spec, copies, st, new, rfl, hcopy, -, hm, hl'⟩ |
    ⟨hcopy, hm, hl'⟩ | ⟨n, spec, st, new, rfl, hm, hl'⟩
  · have hnames : pendingNames (copies ++ .install n spec st new :: rest) =
        pendingNames (.unit n spec :: rest) := pendingNames_copies hcopy
    refine ⟨_, reloading_of_lock hl', ?_⟩
    rw [hnames]
    refine ⟨fun u => by rw [hm], fun u hu => hm ▸ hu, fun u hu => ?_, fun u hu => hu,
      fun u => by rw [hm]; rfl⟩
    rw [hm] at hu
    exact Or.inl (IndexMap.mem_keys_erase.mp hu).2
  · have hnames : pendingNames ([op] ++ rest) = pendingNames rest :=
      pendingNames_copies (by simpa using hcopy)
    rw [List.singleton_append] at hnames
    refine ⟨_, reloading_of_lock hl', ?_⟩
    rw [hnames]
    exact ⟨fun u => by rw [hm], fun u hu => hm ▸ hu, fun u hu => Or.inl (hm ▸ hu), fun u hu => hu,
      fun u => by rw [hm]⟩
  · have hnames : pendingNames (.install n spec st new :: rest) = n :: pendingNames rest := rfl
    refine ⟨_, reloading_of_lock hl', ?_⟩
    rw [hnames]
    refine ⟨fun u => ?_, fun u hu => ?_, fun u hu => ?_, fun u hu => List.mem_cons_of_mem n hu,
      fun u => ?_⟩
    · rw [hm, mem_keys_install.1, List.mem_cons]
      tauto
    · rw [hm]
      exact mem_keys_install.1.mpr (Or.inr hu)
    · rw [hm] at hu
      rcases mem_keys_install.2.mp hu with rfl | hu
      · exact Or.inr List.mem_cons_self
      · exact Or.inl hu
    · rw [hm]
      exact count_emit_ne _ (by simp)

/-- The reload in progress will have put in exactly the new units. -/
def Toward (new : IndexMap UnitName UnitSpec) (w : World) : Prop :=
  ∃ ops, w.reloading = some ops ∧
    ∀ u, u ∈ w.mgr.units.keys ∨ u ∈ pendingNames ops ↔ u ∈ new.keys

theorem pendingNames_units (l : List (UnitName × UnitSpec)) :
    pendingNames (l.map fun e => .unit e.1 e.2) = l.map Prod.fst := by
  unfold pendingNames
  rw [List.filterMap_map]
  exact congrFun List.filterMap_eq_map l

theorem toward_daemonReload {disk : Disk} (h : gone w disk = []) :
    Toward (newUnits disk) (w.daemonReload disk) := by
  refine ⟨_, reloading_of_lock rfl, ?_⟩
  intro u
  rw [daemonReload_mgr, h, pendingNames_units]
  refine ⟨fun hu => hu.elim (fun hu => ?_) id, Or.inr⟩
  by_contra hnew
  have hg := mem_gone.mpr ⟨hu, hnew⟩
  rw [h] at hg
  exact absurd hg (by simp)

/-- Until it ends. -/
theorem toward_call {new : IndexMap UnitName UnitSpec} {c : Call}
    (h : w.reloading = none ∨ Toward new w) (hc : ∀ p, c ≠ .daemonReload p)
    (hs : w.call c = some w') : w'.reloading = none ∨ Toward new w' := by
  rcases call_cases hs with ⟨name, lu, rfl, hl, rfl⟩ | ⟨paths, rfl, -, -⟩ | ⟨rfl, hr⟩ |
    ⟨l, rfl, hreg, hre⟩
  · exact Or.inl (reloading_of_free ((insertLoaded_lock w name lu).trans hl))
  · exact absurd rfl (hc paths)
  · rcases reloadStep_cases hr with ⟨-, rfl⟩ | ⟨op, rest, hl, ho⟩
    · exact Or.inl rfl
    · obtain ⟨ops', hops', hp⟩ := reloadOp_putsIn ho
      rcases h with hidle | ⟨ops, hops, hall⟩
      · rw [reloading_of_lock hl] at hidle
        exact absurd hidle (by simp)
      · obtain rfl := Option.some.inj ((reloading_of_lock hl).symm.trans hops)
        exact Or.inr ⟨ops', hops', fun u => (hp.all u).trans (hall u)⟩
  · rcases h with hidle | ⟨ops, hops, hall⟩
    · exact Or.inl (hre.trans hidle)
    · exact Or.inr ⟨ops, hre.trans hops, hreg.units ▸ hall⟩

/-- Units are never taken out of `units`. -/
theorem units_call {c : Call} (hs : w.call c = some w') :
    ∀ u, u ∈ w.mgr.units.keys → u ∈ w'.mgr.units.keys := by
  intro u hu
  rcases call_cases hs with ⟨name, lu, rfl, -, rfl⟩ | ⟨paths, rfl, -, rfl⟩ | ⟨rfl, hr⟩ |
    ⟨l, rfl, hreg, -⟩
  · have hins : (w.insertLoaded name lu).mgr.units = w.mgr.units.insert name lu.unit := by
      unfold insertLoaded
      split <;> rfl
    rw [hins]
    exact IndexMap.mem_keys_insert.mpr (Or.inr hu)
  · rw [daemonReload_mgr, (foldl_dropUnit _ _).1]
    exact hu
  · rcases reloadStep_cases hr with ⟨-, rfl⟩ | ⟨op, rest, -, ho⟩
    · exact hu
    · obtain ⟨ops', -, hp⟩ := reloadOp_putsIn ho
      exact hp.units u hu
  · exact hreg.units ▸ hu

/-- Only a reload reports a removal. -/
theorem removals_call {c : Call} (hc : ∀ p, c ≠ .daemonReload p) (hs : w.call c = some w')
    (u : UnitName) : w'.mgr.removals u = w.mgr.removals u := by
  rcases call_cases hs with ⟨name, lu, rfl, -, rfl⟩ | ⟨paths, rfl, -, -⟩ | ⟨rfl, hr⟩ |
    ⟨l, rfl, hreg, -⟩
  · have hins : (w.insertLoaded name lu).mgr.events = w.mgr.events ++ [.unitNew name] := by
      unfold insertLoaded
      split <;> rfl
    unfold Manager.removals
    rw [hins, List.count_append, List.count_singleton, if_neg (by simp), Nat.add_zero]
  · exact absurd rfl (hc paths)
  · rcases reloadStep_cases hr with ⟨-, rfl⟩ | ⟨op, rest, -, ho⟩
    · rfl
    · obtain ⟨ops', -, hp⟩ := reloadOp_putsIn ho
      exact hp.removals u
  · exact hreg.reports _ rfl

/-- A unit that is gone stays in `units` without a status while the reload goes on, -/
structure Stale (u : UnitName) (w : World) : Prop where
  units : u ∈ w.mgr.units.keys
  status : u ∉ w.mgr.status.keys
  pending : ∀ ops, w.reloading = some ops → u ∉ pendingNames ops

theorem stale_daemonReload {disk : Disk} {u : UnitName} (h : u ∈ gone w disk) :
    Stale u (w.daemonReload disk) := by
  obtain ⟨hu, hnew⟩ := mem_gone.mp h
  obtain ⟨hunits, hstatus, -, -⟩ := foldl_dropUnit (gone w disk) w.mgr
  refine ⟨?_, ?_, ?_⟩
  · rw [daemonReload_mgr, hunits]
    exact hu
  · rw [daemonReload_mgr, hstatus]
    exact fun hc => hc.1 h
  · intro ops hops
    obtain rfl := Option.some.inj ((reloading_of_lock rfl).symm.trans hops)
    rw [pendingNames_units]
    exact hnew

/-- and after it. -/
theorem stale_call {c : Call} {u : UnitName} {ops : List ReloadOp} (h : Stale u w)
    (hops : w.reloading = some ops) (hs : w.call c = some w') : Stale u w' := by
  have hfree : w.lock ≠ .free := by
    intro hl
    rw [reloading_of_free hl] at hops
    exact absurd hops (by simp)
  rcases call_cases hs with ⟨name, lu, rfl, hl, -⟩ | ⟨paths, rfl, hl, -⟩ | ⟨rfl, hr⟩ |
    ⟨l, rfl, hreg, hre⟩
  · exact absurd hl hfree
  · exact absurd hl hfree
  · rcases reloadStep_cases hr with ⟨-, rfl⟩ | ⟨op, rest, hl, ho⟩
    · exact ⟨h.units, h.status, fun ops hops => absurd hops (by simp [reloading, Lock.pending])⟩
    · obtain ⟨ops', hops', hp⟩ := reloadOp_putsIn ho
      have hpend := h.pending _ (reloading_of_lock hl)
      refine ⟨hp.units u h.units, fun hc => (hp.status u hc).elim h.status hpend, ?_⟩
      intro ops'' hops''
      obtain rfl := Option.some.inj (hops'.symm.trans hops'')
      exact fun hc => hpend (hp.pending u hc)
  · exact ⟨hreg.units ▸ h.units, hreg.keys ▸ h.status, fun ops hops => h.pending ops (hre ▸ hops)⟩

/-- When the reload has ended, the maps do not agree. -/
theorem stale_surfaces {u : UnitName} : ∀ {cs : List Call} {w v : World}, Stale u w →
    runs call w cs = some v → v.reloading = none →
    ∃ pre x, pre <+: cs ∧ runs call w pre = some x ∧ x.reloading = none ∧ ¬ x.mgr.Coherent
  | cs, w, v, h, hrun, hv => by
    cases hops : w.reloading with
    | none => exact ⟨[], w, List.nil_prefix, rfl, hops, fun hc => h.status ((hc.status u).mpr h.units)⟩
    | some ops =>
      cases cs with
      | nil =>
        obtain rfl := Option.some.inj hrun
        rw [hops] at hv
        exact absurd hv (by simp)
      | cons c cs =>
        obtain ⟨w', hs, hrun⟩ := runs_cons.mp hrun
        obtain ⟨pre, x, hpre, hx, hidle, hnc⟩ := stale_surfaces (stale_call h hops hs) hrun hv
        exact ⟨c :: pre, x, List.cons_prefix_cons.mpr ⟨rfl, hpre⟩, runs_cons.mpr ⟨w', hs, hx⟩,
          hidle, hnc⟩

/-! ## Every run -/

/-- What the registry is to satisfy over a run. -/
structure RegistryOk (w : World) (cs : List Call) : Prop where
  /-- Between calls the maps agree. -/
  coherent : ∀ pre x, pre <+: cs → runs call w pre = some x → x.reloading = none →
    x.mgr.Coherent
  /-- When a reload is through, the units are those that it loaded. -/
  loaded : ∀ pre paths mid x, pre ++ .daemonReload paths :: mid <+: cs →
    (∀ p, .daemonReload p ∉ mid) → runs call w (pre ++ .daemonReload paths :: mid) = some x →
    x.reloading = some [] → ∀ u, u ∈ x.mgr.units.keys ↔ u ∈ (newUnits paths.disk).keys
  /-- A unit that reloads find gone is reported once, however many do, -/
  once : ∀ pre mid x y u, pre ++ mid <+: cs → runs call w pre = some x →
    runs call x mid = some y → u ∈ x.mgr.units.keys → (∀ lu, .insertLoaded u lu ∉ mid) →
    (∃ p, .daemonReload p ∈ mid) → (∀ p, .daemonReload p ∈ mid → u ∉ (newUnits p.disk).keys) →
    y.mgr.removals u = x.mgr.removals u + 1
  /-- and one that they find is not. -/
  kept : ∀ pre mid x y u, pre ++ mid <+: cs → runs call w pre = some x →
    runs call x mid = some y → (∀ p, .daemonReload p ∈ mid → u ∈ (newUnits p.disk).keys) →
    y.mgr.removals u = x.mgr.removals u

theorem removals_of_nothingGone {c : Call} (h : NothingGone w c) (hs : w.call c = some w')
    (u : UnitName) : w'.mgr.removals u = w.mgr.removals u := by
  by_cases hc : ∃ p, c = .daemonReload p
  · obtain ⟨p, rfl⟩ := hc
    obtain ⟨-, rfl⟩ := ifFree_eq hs
    rw [daemonReload_mgr, h p rfl]
    rfl
  · exact removals_call (fun p hp => hc ⟨p, hp⟩) hs u

theorem units_run {cs : List Call} {w v : World} (hrun : runs call w cs = some v) {u : UnitName}
    (hu : u ∈ w.mgr.units.keys) : u ∈ v.mgr.units.keys :=
  runs_inv (P := fun x => u ∈ x.mgr.units.keys) (A := fun _ _ => True)
    (fun _ _ _ hx _ hs => units_call hs u hx) hu (Along.of_labels fun _ _ => trivial) hrun

theorem along_front {ok : World → Call → Prop} {pre cs : List Call} (h : Along call ok w cs)
    (hp : pre <+: cs) : Along call ok w pre := by
  obtain ⟨t, rfl⟩ := hp
  exact h.append.1

/-- If no reload misses a unit, all is well. -/
theorem registryOk_of_nothingGone {cs : List Call} (hw : w.mgr.Coherent) (hidle : w.reloading = none)
    (hok : Along call NothingGone w cs) : RegistryOk w cs := by
  refine ⟨?_, ?_, ?_, ?_⟩
  · intro pre x hpre hx hxi
    have hn := runs_inv (fun _ _ _ hi ho hs => nearlyCoherent_call hi ho hs)
      (nearlyCoherent_of_coherent hw hidle) (along_front hok hpre) hx
    exact hn.coherent hxi
  · intro pre paths mid x hpre hmid hx hxops
    obtain ⟨s, hs, hrest⟩ := runs_append.mp hx
    obtain ⟨s', hs', hmidrun⟩ := runs_cons.mp hrest
    have hgone := ((along_front hok hpre).append.2 s hs).1 paths rfl
    obtain ⟨-, rfl⟩ := ifFree_eq hs'
    have hlabels : ∀ c ∈ mid, ∀ p, c ≠ .daemonReload p := by
      rintro c hc p rfl
      exact hmid p hc
    have hend := runs_inv (P := fun y => y.reloading = none ∨ Toward (newUnits paths.disk) y)
      (A := fun _ c => ∀ p, c ≠ .daemonReload p) (fun _ _ _ hi hc hs => toward_call hi hc hs)
      (Or.inr (toward_daemonReload hgone))
      (Along.of_labels hlabels) hmidrun
    rcases hend with he | ⟨ops, hops, hall⟩
    · rw [he] at hxops
      exact absurd hxops (by simp)
    · obtain rfl := Option.some.inj (hops.symm.trans hxops)
      intro u
      simpa [pendingNames] using hall u
  · intro pre mid x y u hpre hx hy hu _ ⟨p, hp⟩ hgone
    -- the first of these reloads would miss `u`
    obtain ⟨a, b, rfl⟩ := List.append_of_mem hp
    obtain ⟨z, hz, -⟩ := runs_append.mp hy
    have hmid := (along_front hok hpre).append.2 x hx
    have hnone := (hmid.append.2 z hz).1 p rfl
    have hmem := mem_gone.mpr ⟨units_run hz hu, hgone p hp⟩
    rw [hnone] at hmem
    exact absurd hmem (by simp)
  · intro pre mid x y u hpre hx hy _
    exact runs_inv (P := fun z => z.mgr.removals u = x.mgr.removals u)
      (fun _ _ _ hi ho hs => (removals_of_nothingGone ho hs u).trans hi) rfl
      ((along_front hok hpre).append.2 x hx) hy

/-- And a reload that misses one leaves the maps in disagreement. -/
theorem nothingGone_of_registryOk {w₀ v : World} {cs₀ : List Call} (h : RegistryOk w₀ cs₀)
    (hv : v.reloading = none) : ∀ (pre : List Call) {cs : List Call} {w : World}, pre ++ cs = cs₀ →
    runs call w₀ pre = some w → runs call w cs = some v → Along call NothingGone w cs
  | _, [], _, _, _, _ => trivial
  | pre, c :: cs, w, hcs, hpre, hrun => by
    obtain ⟨w', hs, hrun'⟩ := runs_cons.mp hrun
    refine ⟨?_, ?_⟩
    · rintro paths rfl
      refine List.eq_nil_iff_forall_not_mem.mpr ?_
      intro u hu
      obtain ⟨-, rfl⟩ := ifFree_eq hs
      obtain ⟨a, x, ha, hx, hidle, hnc⟩ := stale_surfaces (stale_daemonReload hu) hrun' hv
      refine hnc (h.coherent (pre ++ .daemonReload paths :: a) x ?_ ?_ hidle)
      · rw [← hcs]
        exact (List.prefix_append_right_inj pre).mpr (List.cons_prefix_cons.mpr ⟨rfl, ha⟩)
      · exact runs_append.mpr ⟨w, hpre, runs_cons.mpr ⟨_, hs, hx⟩⟩
    · intro w'' hs'
      obtain rfl := Option.some.inj (hs.symm.trans hs')
      refine nothingGone_of_registryOk h hv (pre ++ [c]) ?_ ?_ hrun'
      · rw [← hcs, List.append_assoc]
        rfl
      · exact runs_append.mpr ⟨w, hpre, runs_cons.mpr ⟨_, hs, rfl⟩⟩

/-- **The registry is coherent over a run, exactly** if no reload misses a unit that is in
`units`. -/
theorem registryOk_iff {w v : World} {cs : List Call} (hw : w.mgr.Coherent)
    (hidle : w.reloading = none) (hrun : runs call w cs = some v) (hv : v.reloading = none) :
    RegistryOk w cs ↔ Along call NothingGone w cs :=
  ⟨fun h => nothingGone_of_registryOk h hv [] rfl rfl hrun,
    registryOk_of_nothingGone hw hidle⟩

/-! ## A removed unit -/

/-- A new manager. -/
def fresh : World := { mgr := {}, runners := [] }

theorem coherent_fresh : fresh.mgr.Coherent :=
  ⟨fun u => by simp [fresh], fun u => by simp [fresh]⟩

/-- The service of the examples, loaded. -/
def loadedService : LoadedUnit serviceName := ⟨.empty serviceName, fits_empty serviceName⟩

/-- It is loaded, and a reload finds it changed or not. -/
def keepRun : List Call :=
  [.insertLoaded serviceName loadedService, .daemonReload [⟨serviceName, some loadedService⟩],
    .other .reloadStep, .other .reloadStep, .other .reloadStep, .other .reloadStep,
    .other .reloadStep, .other .reloadStep, .other .reloadStep]

theorem registryOk_iff_keepRun : ∃ v, runs call fresh keepRun = some v ∧
    (RegistryOk fresh keepRun ↔ Along call NothingGone fresh keepRun) := by
  obtain ⟨v, hv⟩ : ∃ v, runs call fresh keepRun = some v := ⟨_, rfl⟩
  have hidle : (runs call fresh keepRun).map reloading = some none := rfl
  rw [hv] at hidle
  exact ⟨v, hv, registryOk_iff coherent_fresh rfl hv (Option.some.inj hidle)⟩

/-- It is loaded, and a reload finds it gone. -/
def removeRun : List Call :=
  [.insertLoaded serviceName loadedService, .daemonReload [], .other .reloadStep]

/-- Then it stays in `units` without a status. -/
theorem not_all_registryOk : ¬ ∀ (w v : World) (cs : List Call), w.mgr.Coherent →
    w.reloading = none → runs call w cs = some v → v.reloading = none → RegistryOk w cs := by
  intro h
  have hkeys : (runs call fresh removeRun).map (fun v => (v.reloading, v.mgr.units.keys,
      v.mgr.status.keys)) = some (none, [serviceName], []) := rfl
  obtain ⟨v, hv, he⟩ := Option.map_eq_some_iff.mp hkeys
  obtain ⟨hidle, hunits, hstatus⟩ : v.reloading = none ∧ v.mgr.units.keys = [serviceName] ∧
      v.mgr.status.keys = [] := by simpa using he
  have hc := (h fresh v removeRun coherent_fresh rfl hv hidle).coherent removeRun v
    List.prefix_rfl hv hidle
  have hmem := (hc.status serviceName).mpr (by rw [hunits]; simp)
  rw [hstatus] at hmem
  exact absurd hmem (by simp)

end World

end Systeml.Runtime
