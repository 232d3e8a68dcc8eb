import Systeml.Lib.Text
import Mathlib.Algebra.Ring.Nat

/-!
# The `[Service]` section

The typed service definition, restricted to the fields the service runner, the
supervisor and the manager read. Durations are in nanoseconds, as
`std::time::Duration` counts them.
-/

namespace Systeml.Unit

open Systeml.Lib

/-- Parsed systemd duration: nanoseconds, or the `infinity` sentinel. -/
inductive SdDuration where
  | finite (nanos : Nat)
  | infinity
  deriving DecidableEq, Repr

/-- Nanoseconds in a second. -/
abbrev nanosPerSec : Nat := 1000000000

namespace SdDuration

/-- `Duration::MAX`: `u64::MAX` seconds and 999 999 999 nanoseconds. -/
def maxNanos : Nat := (2 ^ 64 - 1) * nanosPerSec + (nanosPerSec - 1)

/-- As `std::time::Duration`; `infinity` becomes `Duration::MAX`. -/
def asStd : SdDuration → Nat
  | finite n => n
  | infinity => maxNanos

end SdDuration

/-- `Type=`: service main-process model. -/
inductive ServiceType where
  | simple | exec | forking | oneshot | notify | notifyReload | dbus | idle
  deriving DecidableEq, Repr

/-- `Restart=` policy. -/
inductive Restart where
  | no | always | onSuccess | onFailure | onAbnormal | onWatchdog | onAbort
  deriving DecidableEq, Repr

/-- `KillMode=`. -/
inductive KillMode where
  | controlGroup | process | mixed | none
  deriving DecidableEq, Repr

/-- Exit-status spec: a numeric code or a signal name. -/
inductive ExitStatus where
  | code (c : UInt8)
  | signal (name : Str)
  deriving DecidableEq, Repr

/-- The leading-character flags of an `Exec*=` line. -/
structure ExecFlags where
  ignoreFailure : Bool := false
  fullPrivs : Bool := false
  raisePriv : Bool := false
  ambientRaise : Bool := false
  noEnvSubst : Bool := false
  setArgv0 : Bool := false
  deriving DecidableEq, Repr

/-- One `ExecStart=` (or sibling) line. -/
structure ExecCommand where
  raw : Str
  argv : List Str
  program : Str
  flags : ExecFlags := {}
  deriving DecidableEq, Repr

/-- The `[Service]` section. The defaults are those of the record, before
`parse_service` applies its own. -/
structure ServiceUnit where
  serviceType : ServiceType := .simple
  remainAfterExit : Bool := false
  guessMainPid : Bool := false
  pidFile : Option Str := none
  execStartPre : List ExecCommand := []
  execStart : List ExecCommand := []
  execStartPost : List ExecCommand := []
  execCondition : List ExecCommand := []
  execReload : List ExecCommand := []
  execStop : List ExecCommand := []
  execStopPost : List ExecCommand := []
  restart : Restart := .no
  restartSec : SdDuration := .finite 0
  restartSteps : UInt32 := 0
  restartMaxDelaySec : Option SdDuration := none
  timeoutStartSec : Option SdDuration := none
  timeoutStopSec : Option SdDuration := none
  killMode : KillMode := .controlGroup
  killSignal : Option Str := none
  sendSigkill : Bool := false
  successExitStatus : List ExitStatus := []
  deriving DecidableEq, Repr

end Systeml.Unit
