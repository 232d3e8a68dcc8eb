import Systeml.Lib.VisitOnce
import Systeml.Lib.Closure
import Systeml.Deps.Graph

/-!
# The transaction builder

From a dependency graph, a view of the manager and a root request, the jobs of
a transaction. `add_job_and_deps` is a visit-once walk: a unit that has no job
yet gets one and is expanded by the rules of its kind; a unit that has one only
gets the new kind merged in, and is not expanded again. The failure of a soft
pull is swallowed, and what it queued before it failed stays queued.

`pullSystem` says who pulls whom under which kind, `jobLabels` what is stored.
`visits` is the same walk with every request kept: the kinds each unit was
asked for, in order, and whether its expansion ran to the end
(`kindsOf_expand`).
-/

namespace Systeml.Deps

open Systeml.Lib Systeml.Unit

/-- A read-only view of the manager state needed to build a transaction. -/
structure ManagerView where
  isLoaded : UnitName → Bool
  isActive : UnitName → Bool
  allowIsolate : UnitName → Bool
  existingJobs : List Job

/-- A built transaction. -/
structure Transaction where
  /-- Jobs in dependency-respecting order. -/
  jobs : List Job := []
  /-- Existing job ids to cancel before applying. -/
  cancel : List JobId := []
  deriving DecidableEq, Repr

/-- Errors that prevent a transaction from being built. -/
inductive TransactionError where
  | cycle (n : UnitName)
  | notLoaded (n : UnitName)
  | conflict (n : UnitName)
  | wouldReplaceFail
  | isolateNotAllowed (n : UnitName)
  | notApplicable (n : UnitName) (kind : JobType)
  deriving DecidableEq, Repr

/-- Merge two job kinds for the same unit, `a` the queued one. -/
def mergeKinds (a b : JobType) : JobType :=
  if b = .nop then a
  else if a = .nop then b
  else if a = b then a
  -- Stop+Start = Restart, in either order.
  else if a = .stop ∧ b = .start ∨ a = .start ∧ b = .stop then .restart
  else if a = .restart ∨ b = .restart then .restart
  else if a = .reload ∧ b = .start ∨ a = .start ∧ b = .reload then .reloadOrStart
  -- VerifyActive is the weakest assertion.
  else if a = .verifyActive ∧ b.resultsInActive then b
  else if b = .verifyActive ∧ a.resultsInActive then a
  else if a = .tryRestart ∧ b.resultsInActive then .restart
  else if b = .tryRestart ∧ a.resultsInActive then .restart
  -- Default: the more recently requested action.
  else b

/-- `TryRestart` on an inactive unit collapses to `Nop`. -/
def collapse (v : ManagerView) (u : UnitName) (kind : JobType) : JobType :=
  if kind = .tryRestart ∧ v.isActive u = false then .nop else kind

/-- What `insert_job` stores: a fresh placeholder job, or the merged kind. -/
def jobLabels (v : ManagerView) (mode : JobMode) : Labels UnitName JobType Job where
  fresh := fun u kind => ⟨.placeholder, u, collapse v u kind, mode⟩
  merge := fun u j kind => { j with kind := mergeKinds j.kind (collapse v u kind) }

/-! ## Expansion rules -/

/-- One edge of `expand_start`: a hard pull, a soft pull, a check or a stop. -/
def startPull (v : ManagerView) (x : DepEdge × UnitName) :
    Option (Pull UnitName JobType TransactionError) :=
  match x.1 with
  | .requires | .bindsTo =>
    if v.isLoaded x.2 then some (.hard x.2 .start) else some (.abort (.notLoaded x.2))
  | .wants | .upholds => if v.isLoaded x.2 then some (.soft x.2 .start) else none
  | .requisite => some (.hard x.2 .verifyActive)
  | .conflicts => if v.isLoaded x.2 then some (.hard x.2 .stop) else none
  | _ => none

/-- A soft pull of `kind` along the edges that `sel` selects, to loaded units. -/
def softPull (v : ManagerView) (sel : DepEdge → Bool) (kind : JobType)
    (x : DepEdge × UnitName) : Option (Pull UnitName JobType TransactionError) :=
  if sel x.1 ∧ v.isLoaded x.2 then some (.soft x.2 kind) else none

variable (g : DepGraph) (v : ManagerView)

/-- Pull-in expansion for Start/Restart/ReloadOrStart. -/
def expandStart (unit : UnitName) : List (Pull UnitName JobType TransactionError) :=
  (g.outgoing unit).filterMap (startPull v)

/-- Expansion for Stop: reverse `BindsTo` and `PartOf`, then `PropagatesStopTo`. -/
def expandStop (unit : UnitName) : List (Pull UnitName JobType TransactionError) :=
  (g.incoming unit).filterMap (softPull v (fun e => e == .bindsTo || e == .partOf) .stop) ++
  (g.outgoing unit).filterMap (softPull v (· == .propagatesStopTo) .stop)

/-- Restart-style propagation: `PartOf=this` units get a TryRestart. -/
def expandStopPropagation (unit : UnitName) (restart : Bool) :
    List (Pull UnitName JobType TransactionError) :=
  (g.incoming unit).filterMap
    (softPull v (· == .partOf) (if restart then .tryRestart else .stop))

/-- `PropagatesReloadTo=` cascade for a Reload. -/
def expandReload (unit : UnitName) : List (Pull UnitName JobType TransactionError) :=
  (g.outgoing unit).filterMap (softPull v (· == .propagatesReloadTo) .reload)

/-- What a unit entered under `kind` pulls. -/
def expansion (unit : UnitName) (kind : JobType) :
    List (Pull UnitName JobType TransactionError) :=
  match kind with
  | .start | .reloadOrStart => expandStart g v unit
  | .restart => expandStart g v unit ++ expandStopPropagation g v unit true
  | .stop => expandStop g v unit
  | .tryRestart =>
    if v.isActive unit then expandStart g v unit ++ expandStopPropagation g v unit true else []
  | .reload => expandReload g v unit
  | .verifyActive | .nop => []

/-- The rules of `add_job_and_deps`: an unloaded unit is refused, and nothing is
expanded under `IgnoreDependencies`. -/
def pullSystem (mode : JobMode) : PullSystem UnitName JobType TransactionError where
  reject := fun u => if v.isLoaded u then none else some (.notLoaded u)
  pulls := fun u kind => if mode = .ignoreDependencies then [] else expansion g v u kind

/-- One more than the units there are to enter: the nodes and the root. -/
def fuel : Nat := g.nodes.elems.length + 2

/-- Add a job and recursively expand its dependencies. -/
def addJobAndDeps (mode : JobMode) (unit : UnitName) (kind : JobType)
    (jobs : IndexMap UnitName Job) : Outcome TransactionError × IndexMap UnitName Job :=
  (pullSystem g v mode).ask (jobLabels v mode) (fuel g) unit kind jobs

/-! ## Isolate -/

/-- The edges `dep_closure` follows. -/
def closureEdge : DepEdge → Bool
  | .wants | .requires | .bindsTo | .upholds | .requisite | .partOf | .after | .before => true
  | _ => false

/-- Targets of the edges `dep_closure` follows. -/
def closureSucc (u : UnitName) : List UnitName :=
  ((g.outgoing u).filter fun x => closureEdge x.1).map Prod.snd

/-- Pull-edge closure starting at `root`. -/
def depClosure (root : UnitName) : IndexSet UnitName :=
  closure (closureSucc g) (root :: g.nodes.elems) root

/-- The active loaded nodes outside the closure of the root. -/
def isolateStops (root : UnitName) : List UnitName :=
  g.nodes.elems.filter fun n =>
    v.isLoaded n && !(depClosure g root).contains n && !g.ignoreOnIsolate.contains n &&
      v.isActive n

/-- Queue a stop for each of them, under mode `Replace`; failures are ignored. -/
def addIsolateStops (root : UnitName) (jobs : IndexMap UnitName Job) : IndexMap UnitName Job :=
  (isolateStops g v root).foldl (fun jobs n => (addJobAndDeps g v .replace n .stop jobs).2) jobs

/-! ## Building -/

/-- An existing job whose unit gets a job of another kind. -/
def conflicting (jobs : IndexMap UnitName Job) (ej : Job) : Bool :=
  match jobs.get? ej.unit with
  | some new => new.kind != ej.kind
  | none => false

/-- The existing job ids to cancel, by mode. -/
def applyMode (mode : JobMode) (jobs : IndexMap UnitName Job) :
    Except TransactionError (List JobId) :=
  match mode with
  | .flush => .ok (v.existingJobs.map Job.id)
  | .fail => if v.existingJobs.any (conflicting jobs) then .error .wouldReplaceFail else .ok []
  | _ => .ok ((v.existingJobs.filter (conflicting jobs)).map Job.id)

/-- Take the jobs out in order, giving each an id and the mode. -/
def finalise (mode : JobMode) : List UnitName → IndexMap UnitName Job → JobIdAlloc →
    List Job × JobIdAlloc
  | [], _, alloc => ([], alloc)
  | n :: order, jobs, alloc =>
    match jobs.get? n with
    | some j =>
      let (id, alloc) := alloc.alloc
      let (rest, alloc) := finalise mode order (jobs.erase n) alloc
      ({ j with id := id, mode := mode } :: rest, alloc)
    | none => finalise mode order jobs alloc

/-- The jobs queued by the root request and, under `Isolate`, the stops. -/
def expand (root : UnitName) (kind : JobType) (mode : JobMode) :
    Except TransactionError (IndexMap UnitName Job) :=
  match addJobAndDeps g v mode root kind .empty with
  | (.failed e, _) => .error e
  | (_, jobs) => .ok (if mode = .isolate then addIsolateStops g v root jobs else jobs)

/-- The order in which the jobs run. -/
def orderJobs (mode : JobMode) (names : List UnitName) :
    Except TransactionError (List UnitName) :=
  if mode = .ignoreRequirements then .ok names
  else match g.topoOrder names with
    | .ok order => .ok order
    | .error n => .error (.cycle n)

/-- The second half of `build`: resolve the mode against the existing jobs, sort,
and give out the ids. -/
def assemble (alloc : JobIdAlloc) (mode : JobMode) (jobs : IndexMap UnitName Job) :
    Except TransactionError (Transaction × JobIdAlloc) := do
  let cancel ← applyMode v mode jobs
  let order ← orderJobs g mode jobs.keys
  let (js, alloc) := finalise mode order jobs alloc
  return ({ jobs := js, cancel := cancel }, alloc)

/-- Build a transaction from a root job request. The ids come from `alloc`,
which is returned as it is left. -/
def Transaction.build (alloc : JobIdAlloc) (root : UnitName) (kind : JobType) (mode : JobMode) :
    Except TransactionError (Transaction × JobIdAlloc) :=
  if kind = .verifyActive ∧ v.isActive root then .ok ({}, alloc)
  else if v.isLoaded root = false then .error (.notLoaded root)
  else if mode = .isolate ∧ v.allowIsolate root = false then .error (.isolateNotAllowed root)
  else do
    let jobs ← expand g v root kind mode
    assemble g v alloc mode jobs

/-- A single-job transaction without expansion. -/
def Transaction.root (unit : UnitName) (kind : JobType) (mode : JobMode) : Transaction :=
  { jobs := [⟨.placeholder, unit, kind, mode⟩] }

end Systeml.Deps
