import Systeml.Unit.ServiceTable
import Systeml.Unit.ActivationTables

/-!
# Parsing a unit file

`parse_unit_str` reads `[Unit]`, `[Install]` and the section of the unit's kind from a
parsed file. What it reads depends on the kind of the unit and on the contents of the
file, not on the unit's name or on line numbers (`fields_congr`); so a unit read again
from its rendered file has the same fields.
-/

namespace Systeml.Unit

open Systeml.Lib

/-- No fields. -/
abbrev emptyShape : Shape where
  Field := Empty
  ListField := Empty
  Ty := fun _ => Empty
  Elem := fun _ => Empty

/-- The section that a kind has of its own. -/
abbrev shapeOf : UnitKind → Shape
  | .service => serviceShape
  | .socket => socketShape
  | .timer => timerShape
  | .path => pathShape
  | _ => emptyShape

/-- No section. -/
def emptyReader : Reader emptyShape where
  sec := none
  action := fun _ => .assign []
  warning := fun _ => none
  initial := { val := fun f => f.elim, list := fun l => l.elim }

/-- The type-specific part of `parse_unit_str`. -/
def readerOf (P : LeafParsers) : (k : UnitKind) → Reader (shapeOf k)
  | .service => serviceReader P
  | .socket => socketReader P
  | .timer => timerReader P
  | .path => pathReader P
  | .target | .mount | .automount | .swap | .device | .slice | .scope => emptyReader

/-- The fully parsed unit (`Unit` in the source). -/
structure TypedUnit where
  name : UnitName
  /-- Fragment paths in load order. -/
  fragmentPaths : List Str
  unit : unitShape.Rec
  install : installShape.Rec
  /-- Per-type data. -/
  kind : (k : UnitKind) × (shapeOf k).Rec
  /-- Preserved for `cat` and `show`. -/
  raw : Ini

/-- Result of parsing. -/
structure ParsedUnit where
  unit : TypedUnit
  warnings : List ParseWarning

/-- The typed fields of a unit. -/
def TypedUnit.fields (u : TypedUnit) :
    unitShape.Rec × installShape.Rec × ((k : UnitKind) × (shapeOf k).Rec) :=
  (u.unit, u.install, u.kind)

/-- `cat`-style output. -/
def TypedUnit.renderCat (u : TypedUnit) : Str := renderIni u.raw

/-- The typed view of a parsed file. -/
def parseIniUnit (P : LeafParsers) (name : UnitName) (path : Str) (ini : Ini) :
    Except UnitError ParsedUnit := do
  let unit ← (unitReader P).read path ini
  let install ← installReader.read path ini
  let kind ← (readerOf P name.kind).read path ini
  return {
    unit := ⟨name, [], unit, install, ⟨name.kind, kind⟩, ini⟩
    warnings := (unitReader P).warnings path ini ++ installReader.warnings path ini ++
      (readerOf P name.kind).warnings path ini }

/-- Parse from in-memory source. -/
def parseUnitStr (P : LeafParsers) (name : UnitName) (source : Str)
    (pathForErrors : Option Str) : Except UnitError ParsedUnit :=
  let path := pathForErrors.getD "<memory>".toList
  match parseIni path source with
  | .error e => .error (.syntactic e)
  | .ok ini => parseIniUnit P name path ini

variable {P : LeafParsers} {name : UnitName} {path : Str} {ini : Ini}

/-- A file is read as a unit when its three sections are. -/
theorem parseIniUnit_eq_ok {r : ParsedUnit} : parseIniUnit P name path ini = .ok r ↔
    ∃ u i k, (unitReader P).read path ini = .ok u ∧ installReader.read path ini = .ok i ∧
      (readerOf P name.kind).read path ini = .ok k ∧
      r = ⟨⟨name, [], u, i, ⟨name.kind, k⟩, ini⟩, (unitReader P).warnings path ini ++
        installReader.warnings path ini ++ (readerOf P name.kind).warnings path ini⟩ := by
  unfold parseIniUnit
  cases hu : (unitReader P).read path ini with
  | error e => simp [bind, Except.bind]
  | ok u =>
    cases hi : installReader.read path ini with
    | error e => simp [bind, Except.bind]
    | ok i =>
      cases hk : (readerOf P name.kind).read path ini with
      | error e => simp [bind, Except.bind]
      | ok k =>
        simp only [bind, Except.bind, pure, Except.pure, Except.ok.injEq]
        constructor
        · intro h
          exact ⟨u, i, k, rfl, rfl, rfl, h.symm⟩
        · intro h
          obtain ⟨_, _, _, rfl, rfl, rfl, hr⟩ := h
          exact hr.symm

/-! ## The sections of a unit -/

/-- The sections that are read as fields. -/
inductive Section where
  | unit | install | own
  deriving DecidableEq, Repr

namespace Section

/-- The fields of a section. -/
abbrev shape (k : UnitKind) : Section → Shape
  | unit => unitShape
  | install => installShape
  | own => shapeOf k

/-- How a section is read. -/
def reader (P : LeafParsers) (k : UnitKind) : (s : Section) → Reader (s.shape k)
  | unit => unitReader P
  | install => installReader
  | own => readerOf P k

end Section

/-- A typed section of a unit. -/
def TypedUnit.view (u : TypedUnit) : (s : Section) → (s.shape u.kind.1).Rec
  | .unit => u.unit
  | .install => u.install
  | .own => u.kind.2

/-- The directive that a section's field holds, as it was read. -/
theorem view_val {P : LeafParsers} {name : UnitName} {path : Str} {ini : Ini} {r : ParsedUnit}
    {u : TypedUnit} (h : parseIniUnit P name path ini = .ok r) (hu : r.unit.fields = u.fields)
    (s : Section) (f : (s.shape u.kind.1).Field) :
    (u.view s).val f = ((s.reader P u.kind.1).lastValue f
      ((s.reader P u.kind.1).entries ini)).getD ((s.reader P u.kind.1).initial.val f) := by
  obtain ⟨ui, ii, ki, hui, hii, hki, rfl⟩ := parseIniUnit_eq_ok.mp h
  obtain ⟨n, paths, uu, iu, ku, raw⟩ := u
  obtain ⟨rfl, rfl, rfl⟩ : ui = uu ∧ ii = iu ∧ ⟨name.kind, ki⟩ = ku := by
    simpa [TypedUnit.fields] using hu
  cases s with
  | unit => exact Reader.read_val hui f
  | install => exact Reader.read_val hii f
  | own => exact Reader.read_val hki f

/-! ## Which files are read -/

/-- Every value of the file is accepted. -/
def Accepted (P : LeafParsers) (k : UnitKind) (ini : Ini) : Prop :=
  (∀ e ∈ (unitReader P).entries ini, (unitReader P).Accepts e) ∧
  (∀ e ∈ installReader.entries ini, installReader.Accepts e) ∧
  ∀ e ∈ (readerOf P k).entries ini, (readerOf P k).Accepts e

theorem parseIniUnit_isOk :
    (∃ r, parseIniUnit P name path ini = .ok r) ↔ Accepted P name.kind ini := by
  unfold Accepted
  rw [← Reader.read_isOk path, ← Reader.read_isOk path, ← Reader.read_isOk path]
  constructor
  · intro h
    obtain ⟨r, hr⟩ := h
    obtain ⟨u, i, k, hu, hi, hk, -⟩ := parseIniUnit_eq_ok.mp hr
    exact ⟨⟨u, hu⟩, ⟨i, hi⟩, ⟨k, hk⟩⟩
  · intro h
    obtain ⟨⟨u, hu⟩, ⟨i, hi⟩, ⟨k, hk⟩⟩ := h
    exact ⟨_, parseIniUnit_eq_ok.mpr ⟨u, i, k, hu, hi, hk, rfl⟩⟩

theorem parseUnitStr_eq {source : Str} {p : Option Str}
    (h : parseIni (p.getD "<memory>".toList) source = .ok ini) :
    parseUnitStr P name source p = parseIniUnit P name (p.getD "<memory>".toList) ini := by
  simp only [parseUnitStr, h]

theorem toOption_eq {α ε ε' : Type} {x : Except ε α} {y : Except ε' α} {a : α}
    (h : x.toOption = y.toOption) (ha : x = .ok a) : y = .ok a := by
  rw [ha] at h
  cases y with
  | error e => exact absurd h (by simp [Except.toOption])
  | ok b => rw [Option.some.inj h]

/-- Neither names nor line numbers matter to what is read. -/
theorem fields_congr {name' : UnitName} (path' : Str) {ini' : Ini} {r : ParsedUnit}
    (hkind : name.kind = name'.kind) (hini : ini.contents = ini'.contents)
    (h : parseIniUnit P name path ini = .ok r) :
    ∃ r', parseIniUnit P name' path' ini' = .ok r' ∧ r'.unit.fields = r.unit.fields := by
  obtain ⟨stem, inst, kind⟩ := name
  obtain ⟨stem', inst', kind'⟩ := name'
  obtain rfl : kind = kind' := hkind
  obtain ⟨u, i, k, hu, hi, hk, rfl⟩ := parseIniUnit_eq_ok.mp h
  have hu' := toOption_eq (Reader.read_congr path' hini) hu
  have hi' := toOption_eq (Reader.read_congr path' hini) hi
  have hk' := toOption_eq (Reader.read_congr path' hini) hk
  exact ⟨_, parseIniUnit_eq_ok.mpr ⟨u, i, k, hu', hi', hk', rfl⟩, rfl⟩

/-- **Rendered unit files parse back to themselves.** -/
theorem rendered_parses {inis : List Ini}
    (h : ∀ ini ∈ inis, ∃ path source, parseIni path source = .ok ini) (path : Str) :
    (∃ r, parseIni path (renderIni (Ini.mergeAll inis)) = .ok r ∧
      r.contents = (Ini.mergeAll inis).contents) ∧
    ∀ u : TypedUnit, u.raw = Ini.mergeAll inis →
      ∃ r, parseIni path u.renderCat = .ok r ∧ r.contents = (Ini.mergeAll inis).contents := by
  have hclean : Clean (Ini.mergeAll inis) := by
    refine Clean.mergeAll ?_
    intro ini hini
    obtain ⟨_, _, hparse⟩ := h ini hini
    exact clean_parse hparse
  have hread := parse_render path hclean
  refine ⟨hread, ?_⟩
  intro u hu
  unfold TypedUnit.renderCat
  rw [hu]
  exact hread

/-- A file and a drop-in that adds to its section. -/
theorem rendered_parses_example : ∃ r, parseIni [] (renderIni (Ini.mergeAll
      [⟨⟨[("A".toList, [⟨"k".toList, "v".toList, 2⟩])], by decide⟩⟩,
        ⟨⟨[("A".toList, [⟨"k".toList, [], 2⟩])], by decide⟩⟩])) = .ok r ∧
      r.contents = [("A".toList, [("k".toList, "v".toList), ("k".toList, [])])] :=
  (rendered_parses (fun ini hini => by
    cases hini with
    | head => exact ⟨[], "[A]\nk=v".toList, rfl⟩
    | tail _ hini =>
      rw [List.mem_singleton.mp hini]
      exact ⟨[], "[A]\nk =".toList, rfl⟩) []).1

end Systeml.Unit
