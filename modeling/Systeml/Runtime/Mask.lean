import Systeml.Runtime.Registry
import Systeml.Runtime.Undo
import Systeml.Unit.LoadedName

/-!
# What a mask does

`mask` puts a link to `/dev/null` into the configuration directory, unless something is
there and it is not forced. The loader takes no notice of such a link: it is no regular
file, so the search goes on in the directories behind it and with the template. So a unit
is masked exactly when the link is put, or was there, and nothing else loads under its name
(`masked_iff`).
-/

namespace Systeml.Runtime

open Systeml.Lib Systeml.Unit Systeml.Deps

/-! ## Units that a reload does not load -/

namespace World

variable {w w' : World}

/-- The unit has no status and no runner, and no reload is about to put it in. -/
structure Out (n : UnitName) (w : World) : Prop where
  status : n ∉ w.mgr.status.keys
  services : n ∉ w.mgr.services.keys
  pending : ∀ ops, w.reloading = some ops → ∀ op ∈ ops, op.name? ≠ some n

/-- A reload that does not load the unit takes it out. -/
theorem out_daemonReload {n : UnitName} {disk : Disk} (h : Registered w)
    (hn : n ∉ (newUnits disk).keys) : Out n (w.daemonReload disk) := by
  obtain ⟨-, hstatus, hservices, -⟩ := foldl_dropUnit (gone w disk) w.mgr
  have hgone : ∀ {keys : List UnitName}, (n ∈ keys → n ∈ w.mgr.units.keys) →
      ¬ (n ∉ gone w disk ∧ n ∈ keys) :=
    fun hkeys hh => hh.1 (mem_gone.mpr ⟨hkeys hh.2, hn⟩)
  refine ⟨?_, ?_, ?_⟩
  · rw [daemonReload_mgr, hstatus]
    exact hgone fun hk => h n (Or.inl hk)
  · rw [daemonReload_mgr, hservices]
    exact hgone fun hk => h n (Or.inr hk)
  · intro ops hops op hop
    obtain rfl := Option.some.inj ((reloading_of_lock rfl).symm.trans hops)
    obtain ⟨e, he, rfl⟩ := List.mem_map.mp hop
    intro hname
    obtain rfl := Option.some.inj hname
    exact hn (List.mem_map_of_mem he)

/-- It stays out, until the next reload. -/
theorem out_other {n : UnitName} {l : Label} (h : Out n w) (hs : w.call (.other l) = some w') :
    Out n w' := by
  obtain ⟨_, _, he, -⟩ | ⟨_, he, -⟩ | ⟨-, hr⟩ | ⟨_, -, hreg, hre⟩ := call_cases hs
  · exact absurd he (by simp)
  · exact absurd he (by simp)
  · obtain ⟨hl, rfl⟩ | ⟨op, rest, hl, ho⟩ := reloadStep_cases hr
    · exact ⟨h.status, h.services, fun ops hops => absurd hops (by simp [reloading, Lock.pending])⟩
    · have hpending := h.pending _ (reloading_of_lock hl)
      obtain ⟨m, spec, copies, st, new, rfl, hcopy, -, hm, hl'⟩ | ⟨-, hm, hl'⟩ |
        ⟨m, spec, st, new, rfl, hm, hl'⟩ := reloadOp_cases ho
      · refine ⟨?_, hm ▸ h.services, ?_⟩
        · rw [hm]
          exact fun hk => h.status (IndexMap.mem_keys_erase.mp hk).2
        · intro ops hops op hop
          obtain rfl := Option.some.inj ((reloading_of_lock hl').symm.trans hops)
          cases List.mem_append.mp hop with
          | inl hop => simp [name?_of_isCopy (hcopy op hop)]
          | inr hop =>
            cases List.mem_cons.mp hop with
            | inl he =>
              subst he
              exact hpending (.unit m spec) List.mem_cons_self
            | inr hop => exact hpending op (List.mem_cons_of_mem _ hop)
      · refine ⟨hm ▸ h.status, hm ▸ h.services, ?_⟩
        intro ops hops op' hop
        obtain rfl := Option.some.inj ((reloading_of_lock hl').symm.trans hops)
        exact hpending op' (List.mem_cons_of_mem _ hop)
      · have hmn : n ≠ m := fun he =>
          hpending (.install m spec st new) List.mem_cons_self (congrArg some he.symm)
        refine ⟨?_, ?_, ?_⟩
        · rw [hm, mem_keys_install.2, not_or]
          exact ⟨hmn, h.status⟩
        · rw [hm, mem_services_install, not_or]
          exact ⟨fun hh => hmn hh.1, h.services⟩
        · intro ops hops op' hop
          obtain rfl := Option.some.inj ((reloading_of_lock hl').symm.trans hops)
          exact hpending op' (List.mem_cons_of_mem _ hop)
  · exact ⟨hreg.keys ▸ h.status, hreg.services ▸ h.services, fun ops hops =>
      h.pending ops (hre ▸ hops)⟩

end World

/-- Starting the unit leaves it without a status, and fails for a service. -/
def CannotStart (m : Manager) (n : UnitName) : Prop :=
  (n.kind = .service → (m.startUnit n).result = .error (.noRunner n)) ∧
    (m.startUnit n).mgr.status.get? n = none

theorem World.Out.cannotStart {n : UnitName} {w : World} (h : w.Out n) : CannotStart w.mgr n := by
  have hstatus := IndexMap.get?_eq_none.mpr h.status
  have hservices := IndexMap.get?_eq_none.mpr h.services
  have hspawn : ∀ m : Manager, m.services = w.mgr.services →
      m.spawnServiceStart n = (m, .error (.noRunner n)) := by
    intro m hm
    unfold Manager.spawnServiceStart
    rw [hm, hservices]
  constructor
  · intro hkind
    simp only [Manager.startUnit, if_pos hkind, hspawn (w.mgr.newJob n .start).2 rfl]
    rfl
  · by_cases hkind : n.kind = .service
    · simp only [Manager.startUnit, if_pos hkind, hspawn (w.mgr.newJob n .start).2 rfl]
      exact hstatus
    · simp only [Manager.startUnit, if_neg hkind]
      show (w.mgr.status.modify n _).get? n = none
      rw [IndexMap.get?_modify_self, hstatus]
      rfl

/-- Whatever happened before a reload that loads only what can be loaded, the unit cannot
be started after it, as long as nothing else is loaded. -/
def CannotStartAfterReload (n : UnitName) (loads : UnitName → Prop) : Prop :=
  ∀ (pre : List Call) (paths : SearchPaths) (post : List Call) (w : World),
    runs World.call World.fresh (pre ++ .daemonReload paths :: post) = some w →
    (∀ e ∈ paths, e.2.isSome = true → loads e.1) →
    (∀ c ∈ post, ∃ l, c = .other l) → CannotStart w.mgr n

theorem newUnits_loads {n : UnitName} {paths : SearchPaths} (h : n ∈ (World.newUnits paths.disk).keys) :
    ∃ e ∈ paths, e.2.isSome = true ∧ e.1 = n := by
  obtain ⟨spec, hspec⟩ := IndexMap.mem_keys.mp h
  obtain ⟨⟨m, o⟩, hm, ho⟩ := List.mem_filterMap.mp (IndexMap.mem_of_get?_ofList hspec)
  obtain ⟨⟨m', o'⟩, he, heq⟩ := List.mem_map.mp hm
  obtain ⟨rfl, rfl⟩ := Prod.mk.inj heq
  cases o' with
  | none => exact absurd ho (by simp)
  | some lu =>
    refine ⟨⟨m', some lu⟩, he, rfl, ?_⟩
    simp only [Option.map_some] at ho
    split at ho
    next => exact (Prod.mk.inj (Option.some.inj ho)).1
    next => exact absurd ho (by simp)

/-- What does not load cannot be started after a reload. -/
theorem cannotStart_of_not_loads {n : UnitName} {loads : UnitName → Prop} (h : ¬ loads n) :
    CannotStartAfterReload n loads := by
  intro pre paths post w hrun hpaths hpost
  obtain ⟨w₁, hpre, hrest⟩ := runs_append.mp hrun
  obtain ⟨w₂, hreload, hpostrun⟩ := runs_cons.mp hrest
  have hreg : World.Registered w₁ :=
    runs_inv (fun _ _ _ hi _ hs => World.registered_call hi hs)
      (fun u hu => absurd hu (by simp [World.fresh]))
      (Along.of_labels (p := fun _ => True) fun _ _ => trivial) hpre
  have hout : World.Out n w₂ := by
    obtain ⟨_, _, he, -⟩ | ⟨paths', he, -, rfl⟩ | ⟨he, -⟩ | ⟨_, he, -⟩ :=
      World.call_cases hreload
    · exact absurd he (by simp)
    · obtain rfl := Call.daemonReload.inj he
      refine World.out_daemonReload hreg ?_
      intro hn
      obtain ⟨e, hmem, hsome, rfl⟩ := newUnits_loads hn
      exact h (hpaths e hmem hsome)
    · exact absurd he (by simp)
    · exact absurd he (by simp)
  have hlast : World.Out n w := by
    refine runs_inv ?_ hout (Along.of_labels hpost) hpostrun
    intro w₃ c w₄ ho hc hstep
    obtain ⟨l, rfl⟩ := hc
    exact World.out_other ho hstep
  exact hlast.cannotStart

/-! ## The view of the loader -/

/-- What the loader sees of a file system. -/
def fileTree (fs : FileSystem) : FileTree where
  isFile := fs.isFile
  readToString := fs.readToString
  readDir d := (fs.readDir d).map fun entries => entries.map Prod.fst

/-- `/dev/null` is a device. -/
structure HasDevNull (fs : FileSystem) : Prop where
  dev : fs.node? ["dev".toList] = some .dir
  null : fs.node? ["dev".toList, "null".toList] = some .device

/-- A link to `/dev/null` leads there. -/
theorem resolve_devNull {fs : FileSystem} (h : HasDevNull fs) {t : Str} (ht : isDevNull t = true)
    {k : Nat} {cur r : Loc} (hr : fs.resolve k (FileSystem.startOf cur t) (components t) = some r) :
    r = ["dev".toList, "null".toList] := by
  obtain ⟨habs, hcomp⟩ := Bool.and_eq_true_iff.mp ht
  have hcs : components t = ["dev".toList, "null".toList] :=
    (beq_iff_eq.mp hcomp).trans (by decide +kernel)
  have hstart : FileSystem.startOf cur t = [] := if_pos habs
  have hfold : ∀ next : Loc → List Str → Option Loc,
      List.foldlM (fs.step next) [] ["dev".toList, "null".toList] =
        some ["dev".toList, "null".toList] := by
    intro next
    have hdev : fs.step next [] "dev".toList = some ["dev".toList] := by
      have hx : fs.node? ([] ++ ["dev".toList]) = some .dir := h.dev
      exact FileSystem.step_plain hx (by simp)
    have hnull : fs.step next ["dev".toList] "null".toList =
        some ["dev".toList, "null".toList] := by
      have hx : fs.node? (["dev".toList] ++ ["null".toList]) = some .device := h.null
      exact FileSystem.step_plain hx (by simp)
    rw [List.foldlM_cons, hdev]
    show List.foldlM (fs.step next) ["dev".toList] ["null".toList] = _
    rw [List.foldlM_cons, hnull]
    rfl
  rw [hcs, hstart] at hr
  cases k with
  | zero => exact (Option.some.inj ((hfold _).symm.trans hr)).symm
  | succ k => exact (Option.some.inj ((hfold _).symm.trans hr)).symm

/-- The last letter of a suffix tells it from `.conf` and `null`. -/
theorem getLast_suffix (k : UnitKind) : ∃ c, k.suffix.getLast? = some c ∧ c ≠ 'f' ∧ c ≠ 'l' := by
  cases k <;> exact ⟨_, rfl, by decide, by decide⟩

theorem getLast_name {n : UnitName} (s : Str) :
    ∃ c, (s ++ n.kind.suffix).getLast? = some c ∧ c ≠ 'f' ∧ c ≠ 'l' := by
  obtain ⟨c, hc, hne⟩ := getLast_suffix n.kind
  refine ⟨c, ?_, hne⟩
  rw [List.getLast?_append, hc]
  rfl

theorem isConf_name {n : UnitName} (s : Str) : isConf (s ++ n.kind.suffix) = false := by
  unfold isConf
  cases h : stripSuffix (s ++ n.kind.suffix) ".conf".toList with
  | none => rfl
  | some stem =>
    obtain ⟨c, hc, hne, -⟩ := getLast_name (n := n) s
    rw [stripSuffix_eq_some.mp h, List.getLast?_append] at hc
    exact absurd (Option.some.inj hc).symm hne

/-! ## Masking -/

section Mask

variable {P : LeafParsers} {e : Env} {fs fs' : FileSystem} {n : UnitName} {base : Str}
  {force : Bool} {changes : EnableChanges}

/-- The state is `masked`, the loader returns no unit, and a reload leaves none to start. -/
structure Masked (P : LeafParsers) (e : Env) (n : UnitName) (fs : FileSystem) : Prop where
  state : ∀ install, unitFileState e fs n install = "masked"
  load : ∀ lu, loadUnitIn P (fileTree fs) n e.userSearchPaths ≠ .ok lu
  start : CannotStartAfterReload n fun m => ∃ lu, loadUnitIn P (fileTree fs) m e.userSearchPaths = .ok lu

/-- The link is put, or it is there: `mask` is forced, or nothing stands at its path, or a
link to `/dev/null` does. -/
def PutsMask (fs : FileSystem) (link : Str) (force : Bool) : Prop :=
  force = true ∨ occupied fs link = false ∨ ∃ t, fs.readLink link = some t ∧ isDevNull t = true

theorem unitFileState_masked (hbase : e.configDir = some base) {install : Option Install} :
    unitFileState e fs n install = "masked" ↔
      ∃ t, fs.readLink (joinPath base n.filename) = some t ∧ isDevNull t = true := by
  unfold unitFileState
  rw [hbase, Option.bind_some]
  cases fs.readLink (joinPath base n.filename) with
  | some t =>
    cases ht : isDevNull t with
    | true => simp [ht]
    | false => simp [ht]
  | none =>
    simp only
    split
    next => simp
    next =>
      cases locateFragment e fs n with
      | none => simp
      | some p =>
        cases install with
        | none => simp
        | some i => cases hi : i.isEmpty <;> simp [hi]

/-- The place of an entry of a unit is named like a unit. -/
theorem place_filename {d : Loc} {name : Str} (h : fs.place (joinPath base n.filename) = some (d, name)) :
    ∃ s, name = s ++ n.kind.suffix := by
  obtain ⟨s, hs⟩ := getLast_components_filename n
  unfold FileSystem.place at h
  rw [getLast_components_join (components_filename n), hs] at h
  obtain ⟨_, -, he⟩ := Option.map_eq_some_iff.mp h
  exact ⟨s, (Prod.mk.inj he).2.symm⟩

/-- A unit loads from behind a mask as it does without an entry. -/
theorem load_blinds {g g' : FileSystem} {d : Loc} {name t : Str} (hname : ∃ s, name = s ++ n.kind.suffix)
    (h : FileSystem.Blinds g g' (d ++ [name]) ["dev".toList, "null".toList] t) :
    loadUnitIn P (fileTree g') n e.userSearchPaths =
      loadUnitIn P (fileTree g) n e.userSearchPaths := by
  obtain ⟨s, rfl⟩ := hname
  refine loadUnitIn_congr h.isFile h.readToString ?_ _ _
  intro dir
  have hdir := h.readDir isConf (fun name hlast => ?_) dir
  · simp only [fileTree, Option.map_map] at hdir ⊢
    exact hdir
  · rw [List.getLast?_concat] at hlast
    obtain rfl := Option.some.inj hlast
    exact isConf_name s

/-- What `mask` puts in place of an entry hides it. -/
theorem blinds_symlink {g g' : FileSystem} {link : Str} (hnull : HasDevNull g)
    (h : g.symlink devNull link = some g') : ∃ d name, g.place link = some (d, name) ∧
      FileSystem.Blinds g g' (d ++ [name]) ["dev".toList, "null".toList] devNull := by
  obtain ⟨d, name, hplace, hnone, hext, hself, hother⟩ := FileSystem.symlink_spec h
  refine ⟨d, name, hplace, hext.cwd, hnone, hself, hother, ?_, hext.node hnull.null, ?_⟩
  · unfold FileSystem.symlink at h
    rw [hplace] at h
    simp only at h
    split at h
    next hfree =>
      obtain rfl := Option.some.inj h
      rw [FileSystem.node?_snoc] at hnone
      have hmem := IndexMap.get?_eq_none.mp hnone
      show g.nodes.keys = (g.nodes.insert (d ++ [name]) _).keys.filter (· ≠ d ++ [name])
      rw [IndexMap.insert, IndexMap.keys_upsert, if_neg hmem, List.filter_append]
      have hkeep : g.nodes.keys.filter (· ≠ d ++ [name]) = g.nodes.keys :=
        List.filter_eq_self.mpr fun r hr => decide_eq_true (ne_of_mem_of_not_mem hr hmem)
      rw [hkeep]
      simp
    next => exact absurd h (by simp)
  · intro k cur r hr
    exact resolve_devNull ⟨hext.node hnull.dev, hext.node hnull.null⟩ (by decide +kernel) hr

/-- What `remove_file` leaves behind is what a link to `/dev/null` hides. -/
theorem blinds_removeFile {g g' : FileSystem} {d : Loc} {name t link : Str} (hnull : HasDevNull g')
    (hplace : g'.place link = some (d, name)) (ht : g'.node? (d ++ [name]) = some (.symlink t))
    (hdev : isDevNull t = true) (h : g'.removeFile link = some g) :
    FileSystem.Blinds g g' (d ++ [name]) ["dev".toList, "null".toList] t := by
  obtain ⟨d', name', hplace', -, hext, hself, hother⟩ := FileSystem.removeFile_spec h
  rw [hplace] at hplace'
  obtain ⟨rfl, rfl⟩ := Prod.mk.inj (Option.some.inj hplace')
  refine ⟨hext.cwd, hself, ht, fun r hr => (hother r hr).symm, ?_, hnull.null, ?_⟩
  · unfold FileSystem.removeFile at h
    rw [hplace] at h
    simp only at h
    split at h
    next =>
      obtain rfl := Option.some.inj h
      exact IndexMap.keys_erase_filter g'.nodes (d ++ [name])
    next => exact absurd h (by simp)
  · intro k cur r hr
    exact resolve_devNull hnull hdev hr

/-- Nothing is removed where nothing is. -/
theorem tryRemove_of_none {g : FileSystem} {d : Loc} {name link : Str}
    (hplace : g.place link = some (d, name)) (hnone : g.node? (d ++ [name]) = none) :
    tryRemove g link = g := by
  unfold tryRemove FileSystem.removeFile
  rw [hplace]
  simp [hnone]

/-- Removing an entry of a unit leaves `/dev/null`. -/
theorem hasDevNull_tryRemove {g : FileSystem} (h : HasDevNull g) :
    HasDevNull (tryRemove g (joinPath base n.filename)) := by
  unfold tryRemove
  cases hr : g.removeFile (joinPath base n.filename) with
  | none => exact h
  | some g' =>
    obtain ⟨d, name, hplace, hdir, -, -, hother⟩ := FileSystem.removeFile_spec hr
    obtain ⟨s, rfl⟩ := place_filename hplace
    constructor
    · rw [Option.getD_some, hother]
      · exact h.dev
      · intro he
        exact hdir (he ▸ h.dev)
    · rw [Option.getD_some, hother]
      · exact h.null
      · intro he
        obtain ⟨c, hc, -, hne⟩ := getLast_name (n := n) s
        have hname : "null".toList = s ++ n.kind.suffix := by
          have hlast := congrArg List.getLast? he
          rw [List.getLast?_concat] at hlast
          exact Option.some.inj hlast
        rw [← hname] at hc
        exact hne (Option.some.inj hc).symm

/-- What a successful `mask` does. -/
theorem mask_cases_in {runtime : Bool} (hbase : e.baseDir runtime = some base)
    (h : mask e fs n runtime force = (fs', .ok changes)) :
    (occupied (fs.createDirAll base).1 (joinPath base n.filename) = true ∧ force = false ∧
      fs' = (fs.createDirAll base).1) ∨
    ((force = true ∨ occupied (fs.createDirAll base).1 (joinPath base n.filename) = false) ∧
      (tryRemove (fs.createDirAll base).1 (joinPath base n.filename)).symlink devNull
        (joinPath base n.filename) = some fs') := by
  have hreport : ∀ {g : FileSystem} {made}, report g (joinPath base n.filename) devNull =
      (fs', .ok made) → g.symlink devNull (joinPath base n.filename) = some fs' := by
    intro g made hr
    unfold report at hr
    split at hr
    next g' hg' => exact hg'.trans (congrArg some (Prod.mk.inj hr).1)
    next => exact absurd (Prod.mk.inj hr).2 (by simp)
  unfold mask at h
  rw [hbase] at h
  cases hc : fs.createDirAll base with
  | mk g o =>
    simp only [hc] at h
    cases o with
    | none => exact absurd (Prod.mk.inj h).2 (by simp)
    | some b =>
      cases hp : putLink g (joinPath base n.filename) devNull force with
      | mk g' r =>
        simp only [hp] at h
        cases r with
        | error err => exact absurd (Prod.mk.inj h).2 (by simp)
        | ok made =>
          obtain ⟨rfl, -⟩ := Prod.mk.inj h
          unfold putLink at hp
          cases hocc : occupied g (joinPath base n.filename) with
          | true =>
            rw [hocc, if_pos rfl] at hp
            cases force with
            | false => exact Or.inl ⟨rfl, rfl, (Prod.mk.inj hp).1.symm⟩
            | true => exact Or.inr ⟨Or.inl rfl, hreport hp⟩
          | false =>
            rw [hocc, if_neg Bool.false_ne_true] at hp
            have hsym := hreport hp
            obtain ⟨d, name, hplace, hnone, -⟩ := FileSystem.symlink_spec hsym
            refine Or.inr ⟨Or.inr rfl, ?_⟩
            show (tryRemove g _).symlink _ _ = _
            rw [tryRemove_of_none hplace hnone]
            exact hsym

theorem mask_cases (hbase : e.configDir = some base)
    (h : mask e fs n false force = (fs', .ok changes)) :
    (occupied (fs.createDirAll base).1 (joinPath base n.filename) = true ∧ force = false ∧
      fs' = (fs.createDirAll base).1) ∨
    ((force = true ∨ occupied (fs.createDirAll base).1 (joinPath base n.filename) = false) ∧
      (tryRemove (fs.createDirAll base).1 (joinPath base n.filename)).symlink devNull
        (joinPath base n.filename) = some fs') :=
  mask_cases_in (show e.baseDir false = some base from hbase) h

/-- Behind a link to `/dev/null` all depends on what loads without it. -/
theorem masked_blinds (hbase : e.configDir = some base) {g : FileSystem} {d : Loc} {name t : Str}
    (hplace : fs'.place (joinPath base n.filename) = some (d, name)) (ht : isDevNull t = true)
    (h : FileSystem.Blinds g fs' (d ++ [name]) ["dev".toList, "null".toList] t) :
    Masked P e n fs' ↔ ∀ lu, loadUnitIn P (fileTree g) n e.userSearchPaths ≠ .ok lu := by
  have hload := load_blinds (P := P) (e := e) (place_filename hplace) h
  constructor
  · intro hm lu
    rw [← hload]
    exact hm.load lu
  · intro hno
    rw [← hload] at hno
    refine ⟨fun install => (unitFileState_masked hbase).mpr ⟨t, ?_, ht⟩, hno, ?_⟩
    · unfold FileSystem.readLink FileSystem.lstat
      rw [hplace, Option.bind_some, h.link]
    · refine cannotStart_of_not_loads ?_
      intro hl
      obtain ⟨lu, hlu⟩ := hl
      exact hno lu hlu

/-- **A mask is effective exactly when the link is put and nothing loads from elsewhere.** -/
theorem masked_iff (hbase : e.configDir = some base) (hnull : HasDevNull fs)
    (h : mask e fs n false force = (fs', .ok changes)) :
    Masked P e n fs' ↔
      PutsMask (fs.createDirAll base).1 (joinPath base n.filename) force ∧
      ∀ lu, loadUnitIn P
        (fileTree (tryRemove (fs.createDirAll base).1 (joinPath base n.filename))) n
        e.userSearchPaths ≠ .ok lu := by
  have hext := (FileSystem.createDirAll_spec fs base).1
  have hnull₀ : HasDevNull (fs.createDirAll base).1 := ⟨hext.node hnull.dev, hext.node hnull.null⟩
  obtain ⟨hocc, rfl, rfl⟩ | ⟨hput, hsym⟩ := mask_cases hbase h
  · -- what stands there is kept
    have hlink : ∀ t, (fs.createDirAll base).1.readLink (joinPath base n.filename) = some t →
        isDevNull t = true → (Masked P e n (fs.createDirAll base).1 ↔ ∀ lu, loadUnitIn P
          (fileTree (tryRemove (fs.createDirAll base).1 (joinPath base n.filename))) n
            e.userSearchPaths ≠ .ok lu) := by
      intro t ht hdev
      unfold FileSystem.readLink FileSystem.lstat at ht
      cases hplace : (fs.createDirAll base).1.place (joinPath base n.filename) with
      | none =>
        rw [hplace] at ht
        exact absurd ht (by simp)
      | some q =>
        obtain ⟨d, name⟩ := q
        rw [hplace, Option.bind_some] at ht
        have hx : (fs.createDirAll base).1.node? (d ++ [name]) = some (.symlink t) := by
          simp only at ht
          split at ht
          next s hs => rw [hs, Option.some.inj ht]
          next => exact absurd ht (by simp)
        obtain ⟨g, hg⟩ := FileSystem.removeFile_isSome hplace hx (by simp)
        have hblinds := blinds_removeFile hnull₀ hplace hx hdev hg
        rw [tryRemove, hg, Option.getD_some]
        exact masked_blinds hbase hplace hdev hblinds
    constructor
    · intro hm
      obtain ⟨t, ht, hdev⟩ := (unitFileState_masked hbase).mp (hm.state none)
      exact ⟨Or.inr (Or.inr ⟨t, ht, hdev⟩), (hlink t ht hdev).mp hm⟩
    · intro hh
      obtain ⟨hputs, hload⟩ := hh
      obtain hforce | hfree | ⟨t, ht, hdev⟩ := hputs
      · exact absurd hforce Bool.false_ne_true
      · rw [hocc] at hfree
        exact absurd hfree (by simp)
      · exact (hlink t ht hdev).mpr hload
  · -- it is replaced
    obtain ⟨d, name, hplace, hblinds⟩ := blinds_symlink (hasDevNull_tryRemove hnull₀) hsym
    have hputs : PutsMask (fs.createDirAll base).1 (joinPath base n.filename) force :=
      hput.imp_right Or.inl
    rw [masked_blinds hbase (FileSystem.place_mono hblinds.ext hplace) (by decide +kernel) hblinds]
    exact ⟨fun hload => ⟨hputs, hload⟩, And.right⟩

end Mask

/-! ## An absent unit and a vendor unit -/

/-- Only `/dev/null`. -/
def devTree : FileSystem where
  nodes := .ofList [(["dev".toList], .dir), (["dev".toList, "null".toList], .device)]
  cwd := []
  closed := by decide +kernel

theorem hasDevNull_devTree : HasDevNull devTree := ⟨by decide +kernel, by decide +kernel⟩

/-- A unit that nothing but the mask is there for. -/
theorem masked_iff_example : Masked noLeaves configC hello
    (mask configC devTree hello false false).1 := by
  have hbase : configC.configDir = some userC := by decide +kernel
  have hok : mask configC devTree hello false false =
      ((mask configC devTree hello false false).1, .ok ⟨false,
        [⟨"symlink", joinPath userC hello.filename, devNull⟩]⟩) :=
    Prod.ext rfl (by decide +kernel)
  refine (masked_iff hbase hasDevNull_devTree hok).mpr ⟨Or.inr (Or.inl (by decide +kernel)), ?_⟩
  have hload : (loadUnitIn noLeaves (fileTree (tryRemove (devTree.createDirAll userC).1
      (joinPath userC hello.filename))) hello configC.userSearchPaths).toOption.isSome = false := by
    decide +kernel
  intro lu hlu
  rw [hlu] at hload
  exact absurd hload (by simp [Except.toOption])

def libUser : Loc := ["usr".toList, "lib".toList, "systemd".toList, "user".toList]

/-- A vendor unit, which has a copy in the configuration directory. -/
def vendorTree : FileSystem where
  nodes := .ofList [(["dev".toList], .dir), (["dev".toList, "null".toList], .device),
    (["usr".toList], .dir), (["usr".toList, "lib".toList], .dir),
    (["usr".toList, "lib".toList, "systemd".toList], .dir), (libUser, .dir),
    (libUser ++ [hello.filename], .file (some "[Service]\nExecStart=/bin/hi\n".toList))]
  cwd := []
  closed := by decide +kernel

/-- The vendor unit is loaded from behind the mask. -/
theorem vendor_unit_unmasked : ¬ ∀ (P : LeafParsers) (e : Env) (fs fs' : FileSystem) (n : UnitName)
    (base : Str) (force : Bool) (changes : EnableChanges), e.configDir = some base →
    HasDevNull fs → (∀ pre post, e.userSearchPaths = pre ++ base :: post →
      ∀ dir ∈ pre, fs.isFile (joinPath dir n.filename) = false) →
    mask e fs n false force = (fs', .ok changes) → Masked P e n fs' := by
  intro h
  have hbase : configC.configDir = some userC := by decide +kernel
  have hok : mask configC vendorTree hello false true =
      ((mask configC vendorTree hello false true).1, .ok ⟨false,
        [⟨"symlink", joinPath userC hello.filename, devNull⟩]⟩) :=
    Prod.ext rfl (by decide +kernel)
  have hmasked := h noLeaves configC vendorTree _ hello userC true _ hbase
    ⟨by decide +kernel, by decide +kernel⟩ ?_ hok
  · have hload : (loadUnitIn noLeaves (fileTree (mask configC vendorTree hello false true).1) hello
        configC.userSearchPaths).toOption.isSome = true := by
      decide +kernel
    cases hl : loadUnitIn noLeaves (fileTree (mask configC vendorTree hello false true).1) hello
        configC.userSearchPaths with
    | ok lu => exact hmasked.load lu hl
    | error e =>
      rw [hl] at hload
      exact absurd hload (by simp [Except.toOption])
  · intro pre post hpaths dir hdir
    have hfirst : configC.userSearchPaths.head? = some userC ∧
        userC ∉ configC.userSearchPaths.tail := by decide +kernel
    rw [hpaths] at hfirst
    cases pre with
    | nil => exact absurd hdir (by simp)
    | cons d pre => exact absurd (List.mem_append_right pre List.mem_cons_self) hfirst.2

end Systeml.Runtime
