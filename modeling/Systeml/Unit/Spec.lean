import Systeml.Unit.Name
import Systeml.Unit.Calendar
import Systeml.Unit.Service

/-!
# The parsed unit

Dependencies, install section and per-type data of a unit, as the dependency
graph and the manager read them. A `BTreeSet` field is the list of its elements
in iteration order.
-/

namespace Systeml.Unit

open Systeml.Lib

/-- All dependency relations declared in a unit's `[Unit]` section that the
graph reads, with the two receiving sides it does not. -/
structure UnitDeps where
  after : List UnitName := []
  before : List UnitName := []
  wants : List UnitName := []
  requires : List UnitName := []
  requisite : List UnitName := []
  bindsTo : List UnitName := []
  partOf : List UnitName := []
  upholds : List UnitName := []
  conflicts : List UnitName := []
  onFailure : List UnitName := []
  onSuccess : List UnitName := []
  propagatesReloadTo : List UnitName := []
  reloadPropagatedFrom : List UnitName := []
  propagatesStopTo : List UnitName := []
  stopPropagatedFrom : List UnitName := []
  deriving DecidableEq, Repr

/-- Contents of `[Install]`. -/
structure Install where
  wantedBy : List UnitName := []
  requiredBy : List UnitName := []
  upheldBy : List UnitName := []
  also : List UnitName := []
  aliases : List UnitName := []
  defaultInstance : Option Str := none
  deriving DecidableEq, Repr

/-- `[Timer]` directives the scheduler reads. -/
structure TimerUnit where
  onCalendar : List CalendarSpec := []
  onActiveSec : Option SdDuration := none
  onBootSec : Option SdDuration := none
  onStartupSec : Option SdDuration := none
  onUnitActiveSec : Option SdDuration := none
  onUnitInactiveSec : Option SdDuration := none
  persistent : Bool := false
  /-- Explicit linked unit. Default `<name>.service`. -/
  unit : Option UnitName := none
  deriving DecidableEq

/-- Per-unit-type typed data. Of a path and a socket unit the graph reads the
unit they activate. -/
inductive UnitTypeData where
  | service (svc : ServiceUnit)
  | socket (service : Option UnitName)
  | timer (t : TimerUnit)
  | path (unit : Option UnitName)
  | target
  | scope
  | other
  deriving DecidableEq

/-- The parsed unit (`Unit` in the source). -/
structure UnitSpec where
  name : UnitName
  description : Str := []
  deps : UnitDeps := {}
  install : Install := {}
  defaultDependencies : Bool := true
  allowIsolate : Bool := false
  ignoreOnIsolate : Bool := false
  kind : UnitTypeData
  deriving DecidableEq

/-- Bootstrap a default-empty unit for the given name. -/
def UnitSpec.empty (name : UnitName) : UnitSpec where
  name := name
  kind := match name.kind with
    | .service => .service {}
    | .socket => .socket none
    | .timer => .timer {}
    | .path => .path none
    | .target => .target
    | .scope => .scope
    | _ => .other

/-- True if the unit's per-type data is something we know how to activate. -/
def isActivatable (u : UnitSpec) : Bool :=
  match u.kind with
  | .other => false
  | _ => true

end Systeml.Unit
