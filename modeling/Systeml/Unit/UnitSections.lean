import Systeml.Unit.Directives

/-!
# The `[Unit]` and `[Install]` sections

The two sections that every unit may have. A set of units is the list of what its
directives name, in their order.
-/

namespace Systeml.Unit

open Systeml.Lib

/-- The row of a directive in a table. -/
def tableAction {A : Type} (table : List (String × A)) (key : Str) : Option A :=
  (table.find? fun row => row.1.toList = key).map (·.2)

theorem tableAction_toList {A : Type} (table : List (String × A)) (key : String) :
    tableAction table key.toList = (table.find? fun row => row.1 = key).map (·.2) := by
  unfold tableAction
  simp only [String.toList_inj]

theorem mem_of_tableAction {A : Type} {table : List (String × A)} {key : Str} {a : A}
    (h : tableAction table key = some a) : ∃ row ∈ table, row.1.toList = key ∧ row.2 = a := by
  obtain ⟨row, hrow, rfl⟩ := Option.map_eq_some_iff.mp h
  exact ⟨row, List.mem_of_find?_eq_some hrow, by simpa using List.find?_some hrow, rfl⟩

/-! ## `[Unit]` -/

/-- The fields of `[Unit]` that hold one value. -/
inductive UnitField where
  | description | defaultDependencies | stopWhenUnneeded | refuseManualStart | refuseManualStop
  | allowIsolate | jobTimeoutSec | jobRunningTimeoutSec | onFailureJobMode | ignoreOnIsolate
  | collectMode | failureAction | successAction | rebootArgument | sourcePath
  deriving DecidableEq, Repr

abbrev UnitField.Ty : UnitField → Type
  | .description => Str
  | .defaultDependencies | .stopWhenUnneeded | .refuseManualStart | .refuseManualStop
  | .allowIsolate | .ignoreOnIsolate => Bool
  | .jobTimeoutSec | .jobRunningTimeoutSec => Option SdDuration
  | .onFailureJobMode | .collectMode | .failureAction | .successAction | .rebootArgument
  | .sourcePath => Option Str

/-- `Unit::empty`. -/
def UnitField.initial : (f : UnitField) → f.Ty
  | .description => []
  | .defaultDependencies => true
  | .stopWhenUnneeded | .refuseManualStart | .refuseManualStop | .allowIsolate
  | .ignoreOnIsolate => false
  | .jobTimeoutSec | .jobRunningTimeoutSec => none
  | .onFailureJobMode | .collectMode | .failureAction | .successAction | .rebootArgument
  | .sourcePath => none

/-- The fields of `[Unit]` that collect. -/
inductive UnitList where
  | documentation
  | after | before | wants | requires | requisite | bindsTo | partOf | upholds | conflicts
  | onFailure | onSuccess | propagatesReloadTo | reloadPropagatedFrom | propagatesStopTo
  | stopPropagatedFrom | joinsNamespaceOf
  | conditions | asserts
  deriving DecidableEq, Repr

abbrev UnitList.Elem : UnitList → Type
  | .documentation => Str
  | .conditions | .asserts => Condition
  | _ => UnitName

abbrev unitShape : Shape where
  Field := UnitField
  ListField := UnitList
  Ty := UnitField.Ty
  Elem := UnitList.Elem

/-- Unit names, whatever else stands among them. -/
def readUnits (v : Str) : Except BadReason (List UnitName) := .ok (parseUnitsList v)

/-- Words. -/
def readList (v : Str) : Except BadReason (List Str) := .ok (parseList v)

/-- The directives of `[Unit]`, but for conditions. -/
def unitTable (P : LeafParsers) : List (String × unitShape.Act) :=
  [("Description", .set .description .ok),
    ("Documentation", .append .documentation readList),
    ("After", .append .after readUnits),
    ("Before", .append .before readUnits),
    ("Wants", .append .wants readUnits),
    ("Requires", .append .requires readUnits),
    ("Requisite", .append .requisite readUnits),
    ("BindsTo", .append .bindsTo readUnits),
    ("PartOf", .append .partOf readUnits),
    ("Upholds", .append .upholds readUnits),
    ("Conflicts", .append .conflicts readUnits),
    ("OnFailure", .append .onFailure readUnits),
    ("OnSuccess", .append .onSuccess readUnits),
    ("PropagatesReloadTo", .append .propagatesReloadTo readUnits),
    ("ReloadPropagatedFrom", .append .reloadPropagatedFrom readUnits),
    ("PropagatesStopTo", .append .propagatesStopTo readUnits),
    ("StopPropagatedFrom", .append .stopPropagatedFrom readUnits),
    ("JoinsNamespaceOf", .append .joinsNamespaceOf readUnits),
    ("DefaultDependencies", .set .defaultDependencies (readBool .expectedBool)),
    ("StopWhenUnneeded", .set .stopWhenUnneeded (readBool .expectedBool)),
    ("RefuseManualStart", .set .refuseManualStart (readBool .expectedBool)),
    ("RefuseManualStop", .set .refuseManualStop (readBool .expectedBool)),
    ("AllowIsolate", .set .allowIsolate (readBool .expectedBool)),
    ("JobTimeoutSec", .set .jobTimeoutSec (readSome (readSeconds P))),
    ("JobRunningTimeoutSec", .set .jobRunningTimeoutSec (readSome (readSeconds P))),
    ("OnFailureJobMode", .set .onFailureJobMode readText),
    ("IgnoreOnIsolate", .set .ignoreOnIsolate (readBool .expectedBool)),
    ("CollectMode", .set .collectMode readText),
    ("FailureAction", .set .failureAction readText),
    ("SuccessAction", .set .successAction readText),
    ("RebootArgument", .set .rebootArgument readText),
    ("SourcePath", .set .sourcePath readText)]

/-- `apply_unit_section`. -/
def unitAction (P : LeafParsers) (key : Str) : unitShape.Act :=
  match tableAction (unitTable P) key with
  | some a => a
  | none =>
    if let some k := stripPrefix "Condition" key then .push .conditions (Condition.parse k)
    else if let some k := stripPrefix "Assert" key then .push .asserts (Condition.parse k)
    else .assign []

def unitReader (P : LeafParsers) : Reader unitShape where
  sec := some "Unit"
  action := unitAction P
  warning := fun key =>
    if (tableAction (unitTable P) key).isSome ∨ (stripPrefix "Condition" key).isSome ∨
      (stripPrefix "Assert" key).isSome then none else some .unknown
  initial := ⟨UnitField.initial, fun _ => []⟩

/-! ## `[Install]` -/

/-- The field of `[Install]` that holds one value. -/
inductive InstallField where
  | defaultInstance
  deriving DecidableEq, Repr

/-- The fields of `[Install]` that collect. -/
inductive InstallList where
  | wantedBy | requiredBy | upheldBy | also | aliases
  deriving DecidableEq, Repr

abbrev installShape : Shape where
  Field := InstallField
  ListField := InstallList
  Ty := fun _ => Option Str
  Elem := fun _ => UnitName

/-- The directives of `[Install]`. -/
def installTable : List (String × installShape.Act) :=
  [("WantedBy", .append .wantedBy readUnits),
    ("RequiredBy", .append .requiredBy readUnits),
    ("UpheldBy", .append .upheldBy readUnits),
    ("Also", .append .also readUnits),
    ("Alias", .append .aliases readUnits),
    ("DefaultInstance", .set .defaultInstance readText)]

/-- `apply_install_section`. -/
def installReader : Reader installShape where
  sec := some "Install"
  action := fun key => (tableAction installTable key).getD (.assign [])
  warning := fun key => if (tableAction installTable key).isSome then none else some .unknown
  initial := ⟨fun _ => none, fun _ => []⟩

end Systeml.Unit
