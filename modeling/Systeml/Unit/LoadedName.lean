import Systeml.Unit.Loader

/-!
# The name of a loaded unit

A unit is named after the file that its main fragment was read from, not after the name
that was asked for. The two are the same exactly when the fragment is the unit's own, under
a name without `/` (`coherent_iff`).
-/

namespace Systeml.Unit

open Systeml.Lib

/-! ## The last component of a path -/

theorem fileName_join {base f : Str} (h : components f ≠ []) :
    fileName (joinPath base f) = fileName f := by
  unfold fileName
  rw [getLast_components_join h]

theorem mem_of_fileName {f c : Str} (h : fileName f = some c) : c ∈ splitOn '/' f := by
  unfold fileName at h
  split at h
  next x hx =>
    split at h
    next => exact absurd h (by simp)
    next =>
      obtain rfl := Option.some.inj h
      exact List.mem_of_mem_filter (List.mem_of_getLast? hx)
  next => exact absurd h (by simp)

/-- The last component of a filename ends in the suffix of its kind. -/
theorem getLast_components_filename (n : UnitName) :
    ∃ p, (components n.filename).getLast? = some (p ++ n.kind.suffix) := by
  have hsuffix : n.kind.suffix <:+ n.filename := by
    unfold UnitName.filename
    split
    · exact List.suffix_append _ _
    · exact List.suffix_append _ _
  obtain ⟨s, hs⟩ := hsuffix
  obtain ⟨hslash, hlength, -⟩ := n.kind.suffix_spec
  obtain ⟨p, hp⟩ := getLast_splitOn_append hslash s
  rw [hs] at hp
  obtain ⟨init, hinit⟩ := List.getLast?_eq_some_iff.mp hp
  have hlen : 2 < (p ++ n.kind.suffix).length := by
    rw [List.length_append]
    omega
  have hne : p ++ n.kind.suffix ≠ [] := fun e => by simp [e] at hlen
  have hdot : p ++ n.kind.suffix ≠ ['.'] := fun e => by simp [e] at hlen
  have hkeep : (p ++ n.kind.suffix != [] && p ++ n.kind.suffix != ['.']) = true := by
    simp only [Bool.and_eq_true, bne_iff_ne]
    exact ⟨hne, hdot⟩
  refine ⟨p, ?_⟩
  rw [components, hinit, List.filter_append,
    List.filter_cons_of_pos (p := fun c => c != [] && c != ['.']) hkeep, List.filter_nil,
    List.getLast?_concat]

theorem components_filename (n : UnitName) : components n.filename ≠ [] := by
  obtain ⟨p, hp⟩ := getLast_components_filename n
  intro h
  rw [h] at hp
  exact absurd hp (by simp)

/-- The file name of a fragment is a part of the filename that was looked for. -/
theorem fileName_candidate {n : UnitName} {base f : Str}
    (h : fileName (joinPath base n.filename) = some f) :
    f.length ≤ n.filename.length ∧ ('/' ∈ n.filename → f.length < n.filename.length) := by
  rw [fileName_join (components_filename n)] at h
  exact length_of_mem_splitOn (mem_of_fileName h)

theorem fileName_own {n : UnitName} {base : Str} (h : '/' ∉ n.filename) :
    fileName (joinPath base n.filename) = some n.filename := by
  rw [fileName_join (components_filename n)]
  unfold fileName
  rw [components_of_plain (plainName_filename h)]
  exact if_neg (plainName_filename h).notDotDot

/-! ## Coherence -/

/-- `from_path` names a unit after the last component. -/
theorem fromPath_ok {path : Str} {name : UnitName} (h : fromPath path = .ok name) :
    ∃ f, fileName path = some f ∧ fromStr f = .ok name := by
  unfold fromPath at h
  split at h
  next => exact absurd h (by simp)
  next f hf =>
    split at h
    next m hm =>
      obtain rfl := Except.ok.inj h
      exact ⟨f, hf, hm⟩
    next => exact absurd h (by simp)

/-- A loaded unit is the parse of its merged text under the name that was asked for. -/
structure Coherent (P : LeafParsers) (t : FileTree) (n : UnitName) (bases : List Str)
    (lu : Loaded) : Prop where
  name : lu.unit.name = n
  /-- The main fragment, then in each section the entries of the drop-ins in their order. -/
  raw : ∃ path template source main added, locateMain t n bases = .ok (path, template) ∧
    t.readToString path = some source ∧ parseIni path source = .ok main ∧
    Reads t ((dropinDirs n bases).flatMap (dropinPaths t)) added ∧
    lu.unit.raw.contents = (added.foldl Ini.merge main).contents ∧
    ∀ s, (lu.unit.raw.entriesOf s).map Entry.pair =
      (main.entriesOf s ++ added.flatMap fun a => a.entriesOf s).map Entry.pair
  fields : ∃ r, parseUnitStr P n (renderIni lu.unit.raw) none = .ok r ∧
    r.unit.fields = lu.unit.fields

/-- The name parses back to itself, holds no `/`, and some directory has its fragment. -/
def OwnFragment (t : FileTree) (n : UnitName) (bases : List Str) : Prop :=
  fromStr n.filename = .ok n ∧ '/' ∉ n.filename ∧
    ∃ base ∈ bases, t.isFile (joinPath base n.filename) = true

variable {P : LeafParsers} {t : FileTree} {n : UnitName} {bases : List Str}

/-- A path that is found is that of the name, or of its template. -/
theorem locateMain_ok {path : Str} {template : Bool}
    (h : locateMain t n bases = .ok (path, template)) :
    (∃ base ∈ bases, path = joinPath base n.filename ∧ t.isFile path = true) ∨
      (∀ base ∈ bases, t.isFile (joinPath base n.filename) = false) ∧
        ∃ tpl base, n.templateForm = some tpl ∧ base ∈ bases ∧
          path = joinPath base tpl.filename := by
  unfold locateMain at h
  split at h
  next p hp =>
    obtain ⟨rfl, -⟩ := Prod.mk.inj (Except.ok.inj h)
    obtain ⟨base, hbase, rfl⟩ := List.mem_map.mp (List.mem_of_find?_eq_some hp)
    exact Or.inl ⟨base, hbase, rfl, List.find?_some hp⟩
  next hnone =>
    split at h
    next => exact absurd h (by simp)
    next tpl htpl =>
      split at h
      next p hp =>
        obtain ⟨rfl, -⟩ := Prod.mk.inj (Except.ok.inj h)
        obtain ⟨base, hbase, rfl⟩ := List.mem_map.mp (List.mem_of_find?_eq_some hp)
        refine Or.inr ⟨?_, tpl, base, htpl, hbase, rfl⟩
        intro b hb
        have hmem := List.mem_map_of_mem (f := fun base => joinPath base n.filename) hb
        exact Bool.eq_false_iff.mpr (List.find?_eq_none.mp hnone _ hmem)
      next => exact absurd h (by simp)

/-- The filename of the template is shorter. -/
theorem length_templateForm {tpl : UnitName} (h : n.templateForm = some tpl) :
    tpl.filename.length < n.filename.length := by
  unfold UnitName.templateForm UnitName.isInstance at h
  cases hi : n.inst with
  | none =>
    rw [hi] at h
    exact absurd h (by simp)
  | some i =>
    rw [hi] at h
    cases i with
    | nil => exact absurd h (by simp)
    | cons c cs =>
      obtain rfl := Option.some.inj h
      simp only [UnitName.filename, UnitName.template, hi, List.length_append, List.length_cons,
        List.length_nil]
      omega

/-- A unit that has the name asked for was read from its own fragment. -/
theorem ownFragment_of_name {path : Str} {template : Bool}
    (h : locateMain t n bases = .ok (path, template)) (hname : fromPath path = .ok n) :
    OwnFragment t n bases := by
  obtain ⟨f, hf, hparse⟩ := fromPath_ok hname
  have hfile : n.filename = f := filename_of_fromStr hparse
  cases locateMain_ok h with
  | inl hown =>
    obtain ⟨base, hbase, rfl, hisFile⟩ := hown
    obtain ⟨-, hlt⟩ := fileName_candidate hf
    refine ⟨hfile ▸ hparse, ?_, base, hbase, hisFile⟩
    intro hslash
    have := hlt hslash
    rw [hfile] at this
    exact absurd this (Nat.lt_irrefl _)
  | inr htpl =>
    -- the last component of the template's path is too short to be the filename
    obtain ⟨-, tpl, base, htpl, -, rfl⟩ := htpl
    obtain ⟨hle, -⟩ := fileName_candidate hf
    have := length_templateForm htpl
    rw [hfile] at this
    omega

/-- A fragment of the unit's own gives it its name. -/
theorem name_of_ownFragment {path : Str} {template : Bool} {name : UnitName}
    (hown : OwnFragment t n bases) (h : locateMain t n bases = .ok (path, template))
    (hname : fromPath path = .ok name) : name = n := by
  obtain ⟨hparse, hslash, base, hbase, hisFile⟩ := hown
  obtain ⟨f, hf, hfrom⟩ := fromPath_ok hname
  cases locateMain_ok h with
  | inl hpath =>
    obtain ⟨base', -, rfl, -⟩ := hpath
    obtain rfl : n.filename = f := Option.some.inj ((fileName_own hslash).symm.trans hf)
    exact Except.ok.inj (hfrom.symm.trans hparse)
  | inr htpl =>
    obtain ⟨hnone, -⟩ := htpl
    rw [hnone base hbase] at hisFile
    exact absurd hisFile Bool.false_ne_true

/-- **A loaded unit is the parse of its merged text under the name asked for exactly when
its fragment is its own.** -/
theorem coherent_iff {lu : Loaded} (h : loadUnitIn P t n bases = .ok lu) :
    Coherent P t n bases lu ↔ OwnFragment t n bases := by
  obtain ⟨name, main, added, hmain, hreads, hlayered⟩ := load_layered h
  obtain ⟨path, template, source, hlocate, hsource, hini, hname⟩ := hmain.located
  constructor
  · intro hc
    have hn : name = n := hlayered.name_eq.symm.trans hc.name
    subst hn
    exact ownFragment_of_name hlocate hname
  · intro hown
    have hn : name = n := name_of_ownFragment hown hlocate hname
    subst hn
    refine ⟨hlayered.name_eq, ?_, ?_⟩
    · refine ⟨path, template, source, main, added, hlocate, hsource, hini, hreads,
        hlayered.contents, ?_⟩
      intro s
      rw [← Ini.entriesOf_layers, Reader.pairs_entriesOf, Reader.pairs_entriesOf, hlayered.contents]
    · obtain ⟨p, r, hr, hfields⟩ := hlayered.fields
      obtain ⟨ini, hrender, hcontents⟩ := parse_render "<memory>".toList hlayered.clean
      obtain ⟨r', hr', hfields'⟩ := fields_congr "<memory>".toList rfl hcontents.symm hr
      refine ⟨r', ?_, hfields'.trans hfields⟩
      rw [parseUnitStr_eq (p := none) hrender]
      exact hr'

/-! ## An instance and its template -/

/-- A directory with one empty file. -/
def oneFile (name : Str) : FileTree := .ofFiles [("/u".toList, name, [])]

/-- An instance. -/
def fooBar : UnitName := ⟨"foo".toList, some "bar".toList, .service⟩

theorem loads_own : ∃ lu, loadUnitIn noLeaves (oneFile "foo@bar.service".toList) fooBar
    ["/u".toList] = .ok lu := by
  have h : (loadUnitIn noLeaves (oneFile "foo@bar.service".toList) fooBar
      ["/u".toList]).toBool = true := by decide +kernel
  cases hl : loadUnitIn noLeaves (oneFile "foo@bar.service".toList) fooBar ["/u".toList] with
  | ok lu => exact ⟨lu, rfl⟩
  | error e =>
    rw [hl] at h
    exact absurd h Bool.false_ne_true

theorem loads_template : ∃ lu, loadUnitIn noLeaves (oneFile "foo@.service".toList) fooBar
    ["/u".toList] = .ok lu ∧ lu.unit.name = ⟨"foo".toList, some [], .service⟩ := by
  have h : (loadUnitIn noLeaves (oneFile "foo@.service".toList) fooBar
      ["/u".toList]).toOption.map (·.unit.name) = some ⟨"foo".toList, some [], .service⟩ := by
    decide +kernel
  cases hl : loadUnitIn noLeaves (oneFile "foo@.service".toList) fooBar ["/u".toList] with
  | ok lu =>
    rw [hl] at h
    exact ⟨lu, rfl, Option.some.inj h⟩
  | error e =>
    rw [hl] at h
    exact absurd h (by simp [Except.toOption])

/-- An instance with a file of its own. -/
theorem coherent_iff_example : ∃ lu, loadUnitIn noLeaves (oneFile "foo@bar.service".toList)
    fooBar ["/u".toList] = .ok lu ∧
    Coherent noLeaves (oneFile "foo@bar.service".toList) fooBar ["/u".toList] lu := by
  obtain ⟨lu, h⟩ := loads_own
  have hname : fromStr fooBar.filename = .ok fooBar := by decide +kernel
  have hslash : '/' ∉ fooBar.filename := by decide +kernel
  have hfile : (oneFile "foo@bar.service".toList).isFile
      (joinPath "/u".toList fooBar.filename) = true := by decide +kernel
  exact ⟨lu, h, (coherent_iff h).mpr ⟨hname, hslash, _, List.mem_singleton_self _, hfile⟩⟩

/-- A unit loaded from a template has the template's name. -/
theorem template_names_unit : ¬ ∀ (P : LeafParsers) (t : FileTree) (n : UnitName)
    (bases : List Str) (lu : Loaded), loadUnitIn P t n bases = .ok lu →
      Coherent P t n bases lu := by
  intro h
  obtain ⟨lu, hload, hname⟩ := loads_template
  have heq := (h _ _ _ _ lu hload).name
  rw [hname] at heq
  exact absurd heq (by decide +kernel)

end Systeml.Unit
