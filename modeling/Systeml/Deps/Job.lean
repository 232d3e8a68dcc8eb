import Systeml.Unit.Spec

/-!
# Job types and ids

One (unit, action, mode) triple queued in the manager, and the allocator of its
id: a `u32` counter that wraps.
-/

namespace Systeml.Deps

open Systeml.Unit

/-- Job id; `0` is the sentinel the transaction builder uses until it
finalises the ids. -/
structure JobId where
  id : UInt32
  deriving DecidableEq, Repr

/-- The sentinel. -/
def JobId.placeholder : JobId := ⟨0⟩

/-- Id allocator, an `AtomicU32`. -/
structure JobIdAlloc where
  next : UInt32
  deriving DecidableEq, Repr

namespace JobIdAlloc

/-- New allocator starting at 1 (skips the sentinel). -/
def new : JobIdAlloc := ⟨1⟩

/-- New allocator starting at the given value, at least 1. -/
def startingAt (start : UInt32) : JobIdAlloc := ⟨max start 1⟩

/-- Allocate a fresh id: `fetch_add`, which wraps. -/
def alloc (a : JobIdAlloc) : JobId × JobIdAlloc := (⟨a.next⟩, ⟨a.next + 1⟩)

end JobIdAlloc

/-- What action a job performs on a unit. -/
inductive JobType where
  | start | stop | restart | tryRestart | reload | reloadOrStart | verifyActive | nop
  deriving DecidableEq, Repr

/-- True if this job will, on success, leave the unit active. -/
def JobType.resultsInActive : JobType → Bool
  | start | restart | reloadOrStart | reload | verifyActive => true
  | _ => false

/-- The kinds that bring a unit up: `Start`, `Restart` and `ReloadOrStart`. -/
def JobType.isStarting : JobType → Bool
  | start | restart | reloadOrStart => true
  | _ => false

/-- `--mode=`: how a new job interacts with existing ones. -/
inductive JobMode where
  | fail | replace | replaceIrreversibly | isolate | flush
  | ignoreDependencies | ignoreRequirements
  deriving DecidableEq, Repr

/-- One queued or in-flight job. -/
structure Job where
  id : JobId
  unit : UnitName
  kind : JobType
  mode : JobMode
  deriving DecidableEq, Repr

end Systeml.Deps
