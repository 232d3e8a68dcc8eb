import Systeml.Lib.Fallible
import Systeml.Unit.Ini
import Systeml.Unit.Service
import Mathlib.Data.List.Induction

/-!
# Reading a `[Service]` section

`parse_service` applies the entries of the section one after the other, to a record
with two defaults of its own. A later entry of a directive replaces what an earlier
one said, so a field with a single value is what the last entry says, or the default
(`parseService_field`).

How a time and a command are read, and what refuses the values of the directives that
the record has no field for, are parameters (`ValueParsers`).
-/

namespace Systeml.Unit

open Systeml.Lib

/-- Look up the last (or only) value for a key. -/
def last (entries : List Entry) (key : Str) : Option Str :=
  (entries.reverse.find? (·.key = key)).map (·.value)

/-! ## Values -/

/-- ASCII letters in lower case. -/
def toAsciiLowercase (s : Str) : Str := s.map Char.toLower

/-- Yes or no. -/
def parseBool (s : Str) : Option Bool :=
  let s := toAsciiLowercase s
  if s ∈ ["1", "yes", "true", "on"].map String.toList then some true
  else if s ∈ ["0", "no", "false", "off"].map String.toList then some false
  else none

/-- Whitespace and comma separated list. -/
def parseList (s : Str) : List Str :=
  (splitOn ' ' (s.map fun c => if isWhitespace c ∨ c = ',' then ' ' else c)).filter (· ≠ [])

/-- An unsigned numeral below `bound`; `+` is allowed. -/
def parseBelow (bound : Nat) (s : Str) : Option Nat := (parseU64 s).filter (· < bound)

/-- Why a value is refused. -/
inductive BadReason where
  | unknown (value : Str)
  | expectedBool
  | u32
  | notAnExitStatus (token : Str)
  | text (reason : Str)
  deriving DecidableEq, Repr

/-- The value that a table has for a word. -/
def ofTable {α : Type} (table : List (String × α)) (s : Str) : Except BadReason α :=
  match table.find? fun e => e.1.toList = s with
  | some e => .ok e.2
  | none => .error (.unknown s)

/-- `ServiceType::parse`. -/
def ServiceType.parse : Str → Except BadReason ServiceType :=
  ofTable [("simple", .simple), ("exec", .exec), ("forking", .forking), ("oneshot", .oneshot),
    ("notify", .notify), ("notify-reload", .notifyReload), ("dbus", .dbus), ("idle", .idle)]

/-- `Restart::parse`. -/
def Restart.parse : Str → Except BadReason Restart :=
  ofTable [("no", .no), ("always", .always), ("on-success", .onSuccess),
    ("on-failure", .onFailure), ("on-abnormal", .onAbnormal), ("on-watchdog", .onWatchdog),
    ("on-abort", .onAbort)]

/-- `KillMode::parse`. -/
def KillMode.parse : Str → Except BadReason KillMode :=
  ofTable [("control-group", .controlGroup), ("cgroup", .controlGroup), ("process", .process),
    ("mixed", .mixed), ("none", .none)]

/-- `ExitStatus::parse`, of a single token. -/
def ExitStatus.parse (s : Str) : Except BadReason ExitStatus :=
  match parseBelow 256 s with
  | some n => .ok (.code n.toUInt8)
  | none =>
    if "SIG".toList.isPrefixOf s then .ok (.signal s) else .error (.notAnExitStatus s)

/-- The signals that the runtime can deliver. -/
def signalNames : List Str :=
  ["SIGTERM", "SIGKILL", "SIGINT", "SIGHUP", "SIGUSR1", "SIGUSR2", "SIGQUIT", "SIGABRT"].map
    String.toList

/-- Validate a signal name, so that a stop does not have to fall back. -/
def validateSignalName (s : Str) : Except BadReason Str :=
  if s ∈ signalNames then .ok s else .error (.unknown s)

/-- What reads the other values. -/
structure ValueParsers where
  /-- `parse_duration`, with the seconds of its default unit. -/
  duration : Str → Nat → Except BadReason SdDuration
  /-- `ExecCommand::parse`. -/
  command : Str → Except BadReason ExecCommand
  /-- Refuses the value of a directive that the record has no field for. -/
  check : Entry → Except BadReason Unit

/-! ## Directives -/

/-- The directives of the fields of the record. -/
inductive Directive where
  | type | remainAfterExit | guessMainPid | pidFile
  | execStartPre | execStart | execStartPost | execCondition | execReload | execStop | execStopPost
  | restart | restartSec | restartSteps | restartMaxDelaySec
  | timeoutStartSec | timeoutStopSec | timeoutSec
  | killMode | killSignal | sendSigkill | successExitStatus
  deriving DecidableEq, Repr

namespace Directive

def key : Directive → Str
  | type => "Type".toList
  | remainAfterExit => "RemainAfterExit".toList
  | guessMainPid => "GuessMainPID".toList
  | pidFile => "PIDFile".toList
  | execStartPre => "ExecStartPre".toList
  | execStart => "ExecStart".toList
  | execStartPost => "ExecStartPost".toList
  | execCondition => "ExecCondition".toList
  | execReload => "ExecReload".toList
  | execStop => "ExecStop".toList
  | execStopPost => "ExecStopPost".toList
  | restart => "Restart".toList
  | restartSec => "RestartSec".toList
  | restartSteps => "RestartSteps".toList
  | restartMaxDelaySec => "RestartMaxDelaySec".toList
  | timeoutStartSec => "TimeoutStartSec".toList
  | timeoutStopSec => "TimeoutStopSec".toList
  | timeoutSec => "TimeoutSec".toList
  | killMode => "KillMode".toList
  | killSignal => "KillSignal".toList
  | sendSigkill => "SendSIGKILL".toList
  | successExitStatus => "SuccessExitStatus".toList

def all : List Directive :=
  [type, remainAfterExit, guessMainPid, pidFile, execStartPre, execStart, execStartPost,
    execCondition, execReload, execStop, execStopPost, restart, restartSec, restartSteps,
    restartMaxDelaySec, timeoutStartSec, timeoutStopSec, timeoutSec, killMode, killSignal,
    sendSigkill, successExitStatus]

def ofKey (s : Str) : Option Directive := all.find? (·.key = s)

theorem ofKey_key (d : Directive) : ofKey d.key = some d := by
  cases d <;> decide

theorem key_of_ofKey {s : Str} {d : Directive} (h : ofKey s = some d) : s = d.key := by
  have hkey := List.find?_some (p := fun d : Directive => d.key = s) h
  exact (of_decide_eq_true hkey).symm

variable (P : ValueParsers) (svc : ServiceUnit) (v : Str)

/-- What an entry of the directive does to the record. -/
def assign : Directive → Except BadReason ServiceUnit
  | type => (ServiceType.parse v).map fun x => { svc with serviceType := x }
  | remainAfterExit =>
    match parseBool v with
    | some b => .ok { svc with remainAfterExit := b }
    | none => .error .expectedBool
  | guessMainPid =>
    match parseBool v with
    | some b => .ok { svc with guessMainPid := b }
    | none => .error .expectedBool
  | pidFile => .ok { svc with pidFile := some v }
  | execStartPre => (P.command v).map fun c => { svc with execStartPre := svc.execStartPre ++ [c] }
  | execStart => (P.command v).map fun c => { svc with execStart := svc.execStart ++ [c] }
  | execStartPost =>
    (P.command v).map fun c => { svc with execStartPost := svc.execStartPost ++ [c] }
  | execCondition =>
    (P.command v).map fun c => { svc with execCondition := svc.execCondition ++ [c] }
  | execReload => (P.command v).map fun c => { svc with execReload := svc.execReload ++ [c] }
  | execStop => (P.command v).map fun c => { svc with execStop := svc.execStop ++ [c] }
  | execStopPost => (P.command v).map fun c => { svc with execStopPost := svc.execStopPost ++ [c] }
  | restart => (Restart.parse v).map fun x => { svc with restart := x }
  | restartSec => (P.duration v 1).map fun d => { svc with restartSec := d }
  | restartSteps =>
    match parseBelow (2 ^ 32) v with
    | some n => .ok { svc with restartSteps := n.toUInt32 }
    | none => .error .u32
  | restartMaxDelaySec => (P.duration v 1).map fun d => { svc with restartMaxDelaySec := some d }
  | timeoutStartSec => (P.duration v 1).map fun d => { svc with timeoutStartSec := some d }
  | timeoutStopSec => (P.duration v 1).map fun d => { svc with timeoutStopSec := some d }
  | timeoutSec =>
    (P.duration v 1).map fun d => { svc with timeoutStartSec := some d, timeoutStopSec := some d }
  | killMode => (KillMode.parse v).map fun x => { svc with killMode := x }
  | killSignal => (validateSignalName v).map fun s => { svc with killSignal := some s }
  | sendSigkill =>
    match parseBool v with
    | some b => .ok { svc with sendSigkill := b }
    | none => .error .expectedBool
  | successExitStatus =>
    ((parseList v).mapM ExitStatus.parse).map fun l =>
      { svc with successExitStatus := svc.successExitStatus ++ l }

end Directive

/-! ## The section -/

/-- The record before the first entry. -/
def ServiceUnit.initial : ServiceUnit := { restartSec := .finite 100000000, guessMainPid := true }

/-- A value that is refused, with its entry. -/
structure BadDirective where
  entry : Entry
  reason : BadReason
  deriving DecidableEq, Repr

variable (P : ValueParsers)

/-- One entry of the section. -/
def applyServiceEntry (svc : ServiceUnit) (e : Entry) : Except BadDirective ServiceUnit :=
  (match Directive.ofKey e.key with
    | some d => d.assign P svc e.value
    | none => (P.check e).map fun _ => svc).mapError fun r => ⟨e, r⟩

/-- `parse_service`, of the entries of the section. -/
def parseService (entries : List Entry) : Except BadDirective ServiceUnit :=
  entries.foldlM (applyServiceEntry P) .initial

variable {P}

theorem applyServiceEntry_ok {svc svc' : ServiceUnit} {e : Entry}
    (h : applyServiceEntry P svc e = .ok svc') :
    (∃ d : Directive, e.key = d.key ∧ d.assign P svc e.value = .ok svc') ∨
      (Directive.ofKey e.key = none ∧ svc' = svc) := by
  unfold applyServiceEntry at h
  cases hd : Directive.ofKey e.key with
  | some d =>
    refine Or.inl ⟨d, Directive.key_of_ofKey hd, ?_⟩
    simp only [hd] at h
    cases ha : d.assign P svc e.value with
    | error r =>
      rw [ha] at h
      exact absurd h (by simp [Except.mapError])
    | ok s =>
      rw [ha] at h
      exact congrArg Except.ok (Except.ok.inj h)
  | none =>
    refine Or.inr ⟨rfl, ?_⟩
    simp only [hd] at h
    cases hc : P.check e with
    | error r =>
      rw [hc] at h
      exact absurd h (by simp [Except.mapError, Except.map])
    | ok s =>
      rw [hc] at h
      exact (Except.ok.inj h).symm

theorem last_append (entries : List Entry) (e : Entry) (key : Str) :
    last (entries ++ [e]) key = if e.key = key then some e.value else last entries key := by
  simp only [last, List.reverse_append, List.reverse_singleton, List.singleton_append,
    List.find?_cons]
  by_cases h : e.key = key
  · simp [h]
  · simp [h]

/-- A section that ends with an entry is read up to it first. -/
theorem parseService_append {entries : List Entry} {e : Entry} {svc : ServiceUnit}
    (h : parseService P (entries ++ [e]) = .ok svc) :
    ∃ s, parseService P entries = .ok s ∧ applyServiceEntry P s e = .ok svc := by
  simp only [parseService, List.foldlM_append] at h
  cases hs : entries.foldlM (applyServiceEntry P) .initial with
  | error r =>
    rw [hs] at h
    exact absurd h (by simp [bind, Except.bind])
  | ok s =>
    refine ⟨s, hs, ?_⟩
    rw [hs] at h
    simp only [bind, Except.bind, List.foldlM_cons, List.foldlM_nil] at h
    cases ha : applyServiceEntry P s e with
    | error r =>
      rw [ha] at h
      exact absurd h (by simp)
    | ok s' =>
      rw [ha] at h
      exact h

/-- **A field is what its last entry says**, or has its default: `d` reads the field from
a value, and the other directives leave it alone. -/
theorem parseService_field {β : Type} (f : ServiceUnit → β) (d : Directive) (read : Str → Option β)
    (hown : ∀ {svc svc' v}, d.assign P svc v = .ok svc' → read v = some (f svc'))
    (hother : ∀ {d' svc svc' v}, d' ≠ d → d'.assign P svc v = .ok svc' → f svc' = f svc)
    {entries : List Entry} : ∀ {svc : ServiceUnit}, parseService P entries = .ok svc →
      some (f svc) = match last entries d.key with
        | some v => read v
        | none => some (f .initial) := by
  induction entries using List.reverseRecOn with
  | nil =>
    intro svc h
    exact Except.ok.inj h ▸ rfl
  | append_singleton entries e ih =>
    intro svc h
    obtain ⟨s, hs, he⟩ := parseService_append h
    rw [last_append]
    obtain ⟨d', hkey, ha⟩ | ⟨hnone, rfl⟩ := applyServiceEntry_ok he
    · by_cases hd : d' = d
      · subst hd
        rw [if_pos hkey]
        exact (hown ha).symm
      · have hne : e.key ≠ d.key := by
          intro heq
          have hsame := (congrArg Directive.ofKey (hkey.symm.trans heq))
          rw [Directive.ofKey_key, Directive.ofKey_key] at hsame
          exact hd (Option.some.inj hsame)
        rw [if_neg hne, hother hd ha]
        exact ih hs
    · have hne : e.key ≠ d.key := by
        intro heq
        rw [heq, Directive.ofKey_key] at hnone
        exact absurd hnone (by simp)
      rw [if_neg hne]
      exact ih hs

/-! ## The fields a stop goes by -/

/-- Other directives do not touch them. -/
theorem assign_kill {d : Directive} {svc svc' : ServiceUnit} {v : Str}
    (h : d.assign P svc v = .ok svc') :
    (d ≠ .sendSigkill → svc'.sendSigkill = svc.sendSigkill) ∧
      (d ≠ .killSignal → svc'.killSignal = svc.killSignal) := by
  cases d <;> simp only [Directive.assign] at h
  case pidFile => exact Except.ok.inj h ▸ ⟨fun _ => rfl, fun _ => rfl⟩
  case remainAfterExit | guessMainPid | restartSteps | sendSigkill =>
    split at h
    · exact Except.ok.inj h ▸ by simp
    · exact absurd h (by simp)
  all_goals
    obtain ⟨x, -, rfl⟩ := map_eq_ok h
    simp

/-- `SendSIGKILL=` is off unless the section turns it on. -/
theorem parseService_sendSigkill {entries : List Entry} {svc : ServiceUnit}
    (h : parseService P entries = .ok svc) :
    some svc.sendSigkill = match last entries Directive.sendSigkill.key with
      | some v => parseBool v
      | none => some false := by
  refine parseService_field (·.sendSigkill) .sendSigkill parseBool ?_ ?_ h
  · intro svc svc' v ha
    simp only [Directive.assign] at ha
    split at ha
    next b hb => exact hb.trans (Except.ok.inj ha ▸ rfl)
    next => exact absurd ha (by simp)
  · intro d svc svc' v hd ha
    exact (assign_kill ha).1 hd

/-- `KillSignal=` is a signal that the runtime can deliver. -/
theorem parseService_killSignal {entries : List Entry} {svc : ServiceUnit}
    (h : parseService P entries = .ok svc) :
    some svc.killSignal = match last entries Directive.killSignal.key with
      | some v => if v ∈ signalNames then some (some v) else none
      | none => some none := by
  refine parseService_field (·.killSignal) .killSignal
    (fun v => if v ∈ signalNames then some (some v) else none) ?_ ?_ h
  · intro svc svc' v ha
    simp only [Directive.assign, validateSignalName] at ha
    split at ha
    next hv =>
      obtain rfl := Except.ok.inj ha
      exact if_pos hv
    next => exact absurd ha (by simp [Except.map])
  · intro d svc svc' v hd ha
    exact (assign_kill ha).2 hd

/-- The section asks for `SIGKILL` after the timeout of a stop. -/
def AsksForSigkill (entries : List Entry) : Prop :=
  (last entries Directive.sendSigkill.key).bind parseBool = some true

/-- The section asks for `SIGKILL` as the first signal of a stop. -/
def BeginsWithSigkill (entries : List Entry) : Prop :=
  last entries Directive.killSignal.key = some "SIGKILL".toList

theorem asksForSigkill_iff {entries : List Entry} {svc : ServiceUnit}
    (h : parseService P entries = .ok svc) : AsksForSigkill entries ↔ svc.sendSigkill = true := by
  have hfield := parseService_sendSigkill h
  unfold AsksForSigkill
  cases hl : last entries Directive.sendSigkill.key with
  | none =>
    rw [hl] at hfield
    simp [Option.some.inj hfield]
  | some v =>
    rw [hl] at hfield
    have hread : some svc.sendSigkill = parseBool v := hfield
    show parseBool v = some true ↔ _
    rw [← hread, Option.some.injEq]

theorem beginsWithSigkill_iff {entries : List Entry} {svc : ServiceUnit}
    (h : parseService P entries = .ok svc) :
    BeginsWithSigkill entries ↔ svc.killSignal = some "SIGKILL".toList := by
  have hfield := parseService_killSignal h
  unfold BeginsWithSigkill
  cases hl : last entries Directive.killSignal.key with
  | none =>
    rw [hl] at hfield
    simp [Option.some.inj hfield]
  | some v =>
    rw [hl] at hfield
    by_cases hv : v ∈ signalNames
    · simp only [if_pos hv] at hfield
      rw [Option.some.inj hfield]
    · simp only [if_neg hv] at hfield
      exact absurd hfield (by simp)

end Systeml.Unit
