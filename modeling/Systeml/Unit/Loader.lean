import Systeml.Unit.Load
import Systeml.Unit.Parse

/-!
# Loading a unit

`load_unit_in` takes the first fragment of the name (or of its template) on the search
path, and lays the drop-ins of every base directory on top. After each directory of
drop-ins the unit is read again from its rendered sections. So at any point the unit is
the typed view of its layers (`Layered`), whatever the number of directories.
-/

namespace Systeml.Unit

open Systeml.Lib

/-- What the loader sees of the file system. -/
structure FileTree where
  isFile : Str → Bool
  /-- The text of a file that can be read. -/
  readToString : Str → Option Str
  /-- The names in a directory that can be read. -/
  readDir : Str → Option (List Str)

/-- A file system that holds some files, each with its directory, its name and its text. -/
def FileTree.ofFiles (files : List (Str × Str × Str)) : FileTree where
  isFile p := files.any fun f => joinPath f.1 f.2.1 = p
  readToString p := (files.find? fun f => joinPath f.1 f.2.1 = p).map fun f => f.2.2
  readDir d := some ((files.filter fun f => f.1 = d).map fun f => f.2.1)

/-! ## The main fragment -/

/-- The last component, if it is a name. -/
def fileName (p : Str) : Option Str :=
  match (components p).getLast? with
  | some c => if c = "..".toList then none else some c
  | none => none

/-- `UnitName::from_path`. -/
def fromPath (p : Str) : Except UnitError UnitName :=
  match fileName p with
  | none => .error (.invalidName (.invalidUnitName p "non-utf8 filename"))
  | some f =>
    match fromStr f with
    | .ok n => .ok n
    | .error e => .error (.invalidName e)

/-- `locate_main`: the path, and whether it is a template's. -/
def locateMain (t : FileTree) (n : UnitName) (bases : List Str) : Except UnitError (Str × Bool) :=
  match (bases.map fun base => joinPath base n.filename).find? t.isFile with
  | some p => .ok (p, false)
  | none =>
    match n.templateForm with
    | none => .error (.io n.filename)
    | some tpl =>
      match (bases.map fun base => joinPath base tpl.filename).find? t.isFile with
      | some p => .ok (p, true)
      | none => .error (.io n.filename)

/-- `parse_unit_file`. -/
def parseUnitFile (P : LeafParsers) (t : FileTree) (path : Str) : Except UnitError ParsedUnit :=
  match t.readToString path with
  | none => .error (.io path)
  | some source =>
    match fromPath path with
    | .error e => .error e
    | .ok name =>
      match parseUnitStr P name source (some path) with
      | .error e => .error e
      | .ok r => .ok { r with unit.fragmentPaths := r.unit.fragmentPaths ++ [path] }

/-! ## Drop-ins -/

/-- Text is sorted by its characters. -/
def leText : Str → Str → Bool
  | [], _ => true
  | _ :: _, [] => false
  | c :: s, d :: t => if c = d then leText s t else c.toNat < d.toNat

/-- A name with the extension `conf`. -/
def isConf (f : Str) : Bool :=
  match stripSuffix f ".conf".toList with
  | some stem => stem != []
  | none => false

/-- The drop-ins of a directory, in the order they are applied. -/
def dropinPaths (t : FileTree) (dir : Str) : List Str :=
  match t.readDir dir with
  | none => []
  | some fs => ((fs.filter isConf).mergeSort leText).map (joinPath dir)

/-- The sections of one drop-in. -/
def readDropin (t : FileTree) (path : Str) : Except UnitError Ini :=
  match t.readToString path with
  | none => .error (.io path)
  | some source =>
    match parseIni path source with
    | .error e => .error (.syntactic e)
    | .ok ini => .ok ini

/-- The loop of `apply_dropins` over the files. -/
def layFiles (t : FileTree) : List Str → Ini → Except UnitError Ini
  | [], raw => .ok raw
  | p :: ps, raw =>
    match readDropin t p with
    | .error e => .error e
    | .ok added => layFiles t ps (raw.merge added)

/-- `apply_dropins`. -/
def applyDropins (P : LeafParsers) (t : FileTree) (dir : Str) (u : TypedUnit) :
    Except UnitError (TypedUnit × List ParseWarning) :=
  match t.readDir dir with
  | none => .ok (u, [])
  | some _ =>
    match layFiles t (dropinPaths t dir) u.raw with
    | .error e => .error e
    | .ok raw =>
      match parseUnitStr P u.name (renderIni raw) none with
      | .error e => .error e
      | .ok r => .ok ({ r.unit with fragmentPaths := u.fragmentPaths ++ dropinPaths t dir },
          r.warnings)

/-- The loop of `load_unit_in` over the directories of drop-ins. -/
def applyAll (P : LeafParsers) (t : FileTree) :
    List Str → TypedUnit → Except UnitError (TypedUnit × List ParseWarning)
  | [], u => .ok (u, [])
  | d :: ds, u =>
    match applyDropins P t d u with
    | .error e => .error e
    | .ok (u, ws) =>
      match applyAll P t ds u with
      | .error e => .error e
      | .ok (u, ws') => .ok (u, ws ++ ws')

/-- Outcome of a load, a `LoadedUnit`. -/
structure Loaded where
  unit : TypedUnit
  warnings : List ParseWarning
  fromTemplate : Bool

/-- The directories of drop-ins, in the order they are gone through. -/
def dropinDirs (n : UnitName) (bases : List Str) : List Str :=
  bases.flatMap (candidateDropinDirs n)

/-- `load_unit_in`. -/
def loadUnitIn (P : LeafParsers) (t : FileTree) (n : UnitName) (bases : List Str) :
    Except UnitError Loaded :=
  match locateMain t n bases with
  | .error e => .error e
  | .ok (mainPath, fromTemplate) =>
    match parseUnitFile P t mainPath with
    | .error e => .error e
    | .ok r =>
      match applyAll P t (dropinDirs n bases) { r.unit with fragmentPaths := [mainPath] } with
      | .error e => .error e
      | .ok (u, ws) => .ok ⟨u, r.warnings ++ ws, fromTemplate⟩

/-- A load depends on files, texts and the drop-ins of directories only. -/
theorem loadUnitIn_congr {P : LeafParsers} {t t' : FileTree} (hfile : ∀ p, t.isFile p = t'.isFile p)
    (hread : ∀ p, t.readToString p = t'.readToString p)
    (hdir : ∀ d, (t.readDir d).map (·.filter isConf) = (t'.readDir d).map (·.filter isConf))
    (n : UnitName) (bases : List Str) : loadUnitIn P t n bases = loadUnitIn P t' n bases := by
  have hlocate : locateMain t n bases = locateMain t' n bases := by
    simp only [locateMain, funext hfile]
  have hparse : ∀ p, parseUnitFile P t p = parseUnitFile P t' p := by
    intro p
    simp only [parseUnitFile, hread]
  have hpaths : ∀ d, dropinPaths t d = dropinPaths t' d := by
    intro d
    have hd := hdir d
    unfold dropinPaths
    cases ha : t.readDir d <;> cases hb : t'.readDir d <;> rw [ha, hb] at hd
    · exact absurd hd (by simp)
    · exact absurd hd (by simp)
    · simp only [Option.some.inj hd]
  have hlay : ∀ ps raw, layFiles t ps raw = layFiles t' ps raw := by
    intro ps
    induction ps with
    | nil => exact fun raw => rfl
    | cons p ps ih =>
      intro raw
      simp only [layFiles, readDropin, hread, ih]
  have hdropins : ∀ d u, applyDropins P t d u = applyDropins P t' d u := by
    intro d u
    have hd := hdir d
    unfold applyDropins
    rw [hlay, hpaths]
    cases ha : t.readDir d <;> cases hb : t'.readDir d <;> rw [ha, hb] at hd
    · exact absurd hd (by simp)
    · exact absurd hd (by simp)
  have hall : ∀ ds u, applyAll P t ds u = applyAll P t' ds u := by
    intro ds
    induction ds with
    | nil => exact fun u => rfl
    | cons d ds ih =>
      intro u
      simp only [applyAll, hdropins, ih]
  simp only [loadUnitIn, hlocate, hparse, hall]

/-! ## What a loaded unit is -/

/-- The sections of some files, in order. -/
def Reads (t : FileTree) (ps : List Str) (inis : List Ini) : Prop :=
  ps.mapM (readDropin t) = .ok inis

/-- A unit is the typed view of what has been laid on top of each other. -/
structure Layered (P : LeafParsers) (name : UnitName) (layers : Ini) (u : TypedUnit) : Prop where
  name_eq : u.name = name
  clean : Clean u.raw
  contents : u.raw.contents = layers.contents
  fields : ∃ path r, parseIniUnit P name path u.raw = .ok r ∧ r.unit.fields = u.fields

theorem clean_readDropin {t : FileTree} {path : Str} {ini : Ini}
    (h : readDropin t path = .ok ini) : Clean ini := by
  unfold readDropin at h
  split at h
  next => exact absurd h (by simp)
  next source _ =>
    split at h
    next => exact absurd h (by simp)
    next ini' hparse =>
      obtain rfl := Except.ok.inj h
      exact clean_parse hparse

theorem Reads.append {t : FileTree} {ps qs : List Str} {as bs : List Ini} (ha : Reads t ps as)
    (hb : Reads t qs bs) : Reads t (ps ++ qs) (as ++ bs) := by
  unfold Reads at *
  rw [List.mapM_append, ha, hb]
  rfl

/-- The files of a directory are laid on top in their order. -/
theorem layFiles_ok {t : FileTree} : ∀ {ps : List Str} {raw raw' : Ini},
    layFiles t ps raw = .ok raw' →
    ∃ added, Reads t ps added ∧ (∀ a ∈ added, Clean a) ∧ raw' = added.foldl Ini.merge raw
  | [], raw, raw', h => ⟨[], rfl, by simp, (Except.ok.inj h).symm⟩
  | p :: ps, raw, raw', h => by
    unfold layFiles at h
    cases hp : readDropin t p with
    | error e =>
      rw [hp] at h
      exact absurd h (by simp)
    | ok a =>
      rw [hp] at h
      obtain ⟨added, hreads, hclean, hraw⟩ := layFiles_ok h
      have hone : Reads t [p] [a] := by
        unfold Reads
        rw [List.mapM_cons, hp]
        rfl
      exact ⟨a :: added, hone.append hreads,
        List.forall_mem_cons.mpr ⟨clean_readDropin hp, hclean⟩, hraw⟩

theorem clean_layers {raw : Ini} {added : List Ini} (h : Clean raw)
    (hadded : ∀ a ∈ added, Clean a) : Clean (added.foldl Ini.merge raw) := by
  refine List.foldlRecOn (motive := Clean) _ _ h ?_
  intro m hm a ha
  exact hm.merge (hadded a ha)

variable {P : LeafParsers} {t : FileTree} {name : UnitName}

/-- A unit read again from its rendered sections. -/
theorem layered_reparsed {raw : Ini} {r : ParsedUnit} {ps : List Str} (hclean : Clean raw)
    (h : parseUnitStr P name (renderIni raw) none = .ok r) :
    Layered P name raw { r.unit with fragmentPaths := ps } := by
  obtain ⟨ini, hini, hcontents⟩ := parse_render "<memory>".toList hclean
  rw [parseUnitStr_eq (p := none) hini] at h
  obtain ⟨u, i, k, -, -, -, rfl⟩ := parseIniUnit_eq_ok.mp h
  exact ⟨rfl, clean_parse hini, hcontents, _, _, h, rfl⟩

theorem Layered.congr {layers layers' : Ini} {u : TypedUnit} (h : Layered P name layers u)
    (hc : layers.contents = layers'.contents) : Layered P name layers' u :=
  ⟨h.name_eq, h.clean, h.contents.trans hc, h.fields⟩

/-- One directory of drop-ins. -/
theorem applyDropins_layered {layers : Ini} {u u' : TypedUnit} {dir : Str}
    {ws : List ParseWarning} (h : Layered P name layers u)
    (hok : applyDropins P t dir u = .ok (u', ws)) :
    ∃ added, Reads t (dropinPaths t dir) added ∧
      Layered P name (added.foldl Ini.merge layers) u' := by
  unfold applyDropins at hok
  split at hok
  next hdir =>
    obtain ⟨rfl, -⟩ := Prod.mk.inj (Except.ok.inj hok)
    refine ⟨[], ?_, h⟩
    simp only [dropinPaths, hdir]
    rfl
  next =>
    split at hok
    next => exact absurd hok (by simp)
    next raw hraw =>
      split at hok
      next => exact absurd hok (by simp)
      next r hr =>
        obtain ⟨rfl, -⟩ := Prod.mk.inj (Except.ok.inj hok)
        obtain ⟨added, hreads, hadded, rfl⟩ := layFiles_ok hraw
        rw [h.name_eq] at hr
        refine ⟨added, hreads, ?_⟩
        exact (layered_reparsed (clean_layers h.clean hadded) hr).congr
          (Ini.contents_layers_congr h.contents)

/-- All of them. -/
theorem applyAll_layered : ∀ {dirs : List Str} {layers : Ini} {u u' : TypedUnit}
    {ws : List ParseWarning}, Layered P name layers u → applyAll P t dirs u = .ok (u', ws) →
    ∃ added, Reads t (dirs.flatMap (dropinPaths t)) added ∧
      Layered P name (added.foldl Ini.merge layers) u'
  | [], layers, u, u', ws, h, hok => by
    obtain ⟨rfl, -⟩ := Prod.mk.inj (Except.ok.inj hok)
    exact ⟨[], rfl, h⟩
  | d :: ds, layers, u, u', ws, h, hok => by
    unfold applyAll at hok
    split at hok
    next => exact absurd hok (by simp)
    next u₁ ws₁ hd =>
      split at hok
      next => exact absurd hok (by simp)
      next u₂ ws₂ hds =>
        obtain ⟨rfl, -⟩ := Prod.mk.inj (Except.ok.inj hok)
        obtain ⟨added, hreads, hlayered⟩ := applyDropins_layered h hd
        obtain ⟨added', hreads', hlayered'⟩ := applyAll_layered hlayered hds
        refine ⟨added ++ added', hreads.append hreads', ?_⟩
        rw [List.foldl_append]
        exact hlayered'

/-- The main fragment as it is read. -/
structure MainFragment (t : FileTree) (n : UnitName) (bases : List Str) (name : UnitName)
    (main : Ini) : Prop where
  located : ∃ path template source, locateMain t n bases = .ok (path, template) ∧
    t.readToString path = some source ∧ parseIni path source = .ok main ∧
    fromPath path = .ok name

/-- **A loaded unit is the view of its layers**, under the name that its fragment has. -/
theorem load_layered {n : UnitName} {bases : List Str} {lu : Loaded}
    (h : loadUnitIn P t n bases = .ok lu) :
    ∃ name main added, MainFragment t n bases name main ∧
      Reads t ((dropinDirs n bases).flatMap (dropinPaths t)) added ∧
      Layered P name (added.foldl Ini.merge main) lu.unit := by
  unfold loadUnitIn at h
  split at h
  next => exact absurd h (by simp)
  next path template hlocate =>
    split at h
    next => exact absurd h (by simp)
    next r hr =>
      split at h
      next => exact absurd h (by simp)
      next u ws hall =>
        obtain rfl := Except.ok.inj h
        unfold parseUnitFile at hr
        split at hr
        next => exact absurd hr (by simp)
        next source hsource =>
          split at hr
          next => exact absurd hr (by simp)
          next name hname =>
            split at hr
            next => exact absurd hr (by simp)
            next r' hr' =>
              obtain rfl := Except.ok.inj hr
              cases hini : parseIni path source with
              | error e => exact absurd hr' (by simp [parseUnitStr, hini])
              | ok main =>
                rw [parseUnitStr_eq (p := some path) hini] at hr'
                have hbase : Layered P name main
                    { r'.unit with fragmentPaths := [path] } := by
                  obtain ⟨u, i, k, -, -, -, rfl⟩ := parseIniUnit_eq_ok.mp hr'
                  exact ⟨rfl, clean_parse hini, rfl, _, _, hr', rfl⟩
                obtain ⟨added, hreads, hlayered⟩ := applyAll_layered hbase hall
                exact ⟨name, main, added, ⟨path, template, source, hlocate, hsource, hini, hname⟩,
                  hreads, hlayered⟩

end Systeml.Unit
