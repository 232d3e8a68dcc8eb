import Systeml.Unit.Exec
import Systeml.Unit.Name
import Systeml.Unit.Calendar

/-!
# Values of directives

Numbers, limits, streams, listen specifications, watched paths and conditions, each with
the function that reads it. Times, calendar expressions and internet addresses are read
by parameters (`LeafParsers`).
-/

namespace Systeml.Unit

open Systeml.Lib

/-- What reads the values that are not modelled here. -/
structure LeafParsers where
  /-- `parse_duration`, with the seconds of its default unit. -/
  duration : Str → Nat → Except BadReason SdDuration
  /-- `CalendarSpec::parse`. -/
  calendar : Str → Except BadReason CalendarSpec
  /-- `SocketAddr::from_str`; an address is what it prints as. -/
  socketAddr : Str → Option Str

/-- Nothing of what is not modelled is accepted. -/
def noLeaves : LeafParsers :=
  ⟨fun _ _ => .error (.text []), fun _ => .error (.text []), fun _ => none⟩

/-- A value that may be absent, with the reason if it is. -/
def orBad {α : Type} (reason : BadReason) : Option α → Except BadReason α
  | some x => .ok x
  | none => .error reason

/-! ## Numbers -/

/-- `u32::from_str_radix(s, 8)`. -/
def parseOctal (s : Str) : Option Nat :=
  let digits := match s with
    | '+' :: s => s
    | s => s
  if digits ≠ [] ∧ digits.all (fun c => '0' ≤ c && c ≤ '7') = true then
    some (digits.foldl (fun n c => 8 * n + (c.toNat - '0'.toNat)) 0) |>.filter (· < 2 ^ 32)
  else none

/-- Without the `0o` in front, however often it is there. -/
def trimOctalPrefix : Str → Str
  | '0' :: 'o' :: s => trimOctalPrefix s
  | s => s

/-- `UMask=`. -/
def parseUmask (v : Str) : Option Nat :=
  (parseOctal ((trimOctalPrefix v).dropWhile (· = '0'))).or (parseOctal v)

/-- `s.parse::<i64>()`. -/
def parseI64 (s : Str) : Option Int := parseInt (-9223372036854775808) 9223372036854775807 s

/-- Where reading digits gets stuck: the first character that is none, or the first
digit that takes the number `n` read so far out of the type. -/
def digitsError (bound : Nat) : Nat → Str → String
  | n, c :: s =>
    if c.isDigit = false then "invalid digit found in string"
    else if bound ≤ 10 * n + (c.toNat - '0'.toNat) then
      "number too large to fit in target type"
    else digitsError bound (10 * n + (c.toNat - '0'.toNat)) s
  | _, [] => "invalid digit found in string"

/-- What the parser of numbers below `bound` says about a text it refuses. -/
def intErrorBelow (bound : Nat) : Str → String
  | [] => "cannot parse integer from empty string"
  | '+' :: s => digitsError bound 0 s
  | s => digitsError bound 0 s

/-- What the `u64` parser says about a text it refuses. -/
def intError (s : Str) : String := intErrorBelow 18446744073709551616 s

/-- `Limit*=`. No limit is infinity. -/
structure RLimit where
  soft : Option Nat
  hard : Option Nat
  deriving DecidableEq, Repr

/-- One side of a limit. -/
def parseLimit (t : Str) : Except BadReason (Option Nat) :=
  if toAsciiLowercase t = "infinity".toList then .ok none
  else (orBad (.text (intError t).toList) (parseU64 t)).map some

/-- `RLimit::parse`. -/
def RLimit.parse (s : Str) : Except BadReason RLimit :=
  match splitOnce ':' s with
  | some (soft, hard) =>
    match parseLimit soft with
    | .error e => .error e
    | .ok soft => (parseLimit hard).map fun hard => ⟨soft, hard⟩
  | none => (parseLimit s).map fun v => ⟨v, v⟩

/-! ## Words -/

/-- `NotifyAccess=`. -/
inductive NotifyAccess where
  | none | main | exec | all
  deriving DecidableEq, Repr

/-- `NotifyAccess::parse`. -/
def NotifyAccess.parse : Str → Except BadReason NotifyAccess :=
  ofTable [("none", .none), ("main", .main), ("exec", .exec), ("all", .all)]

/-- `StandardInput=`, `StandardOutput=` and `StandardError=`. -/
inductive StandardStream where
  | inherit | null | tty
  | file (path : Str)
  | append (path : Str)
  | truncate (path : Str)
  | socket
  | fd (name : Str)
  | journal (sink : Str)
  | linuxOnly (sink : Str)
  deriving DecidableEq, Repr

/-- What stands behind `p`, if the text starts with it. -/
def stripPrefix (p : String) (s : Str) : Option Str :=
  if p.toList.isPrefixOf s then some (s.drop p.length) else none

/-- `StandardStream::parse`. -/
def StandardStream.parse (s : Str) : Except BadReason StandardStream :=
  if s = "inherit".toList then .ok .inherit
  else if s = "null".toList then .ok .null
  else if s = "tty".toList then .ok .tty
  else if s = "socket".toList then .ok .socket
  else if let some p := stripPrefix "file:" s then .ok (.file p)
  else if let some p := stripPrefix "append:" s then .ok (.append p)
  else if let some p := stripPrefix "truncate:" s then .ok (.truncate p)
  else if let some n := stripPrefix "fd:" s then .ok (.fd n)
  else if (stripPrefix "journal" s).isSome then .ok (.journal s)
  else if (stripPrefix "kmsg" s).isSome ∨ (stripPrefix "syslog" s).isSome then .ok (.linuxOnly s)
  else .error (.unknown s)

/-- `BindIPv6Only=`. -/
inductive BindIPv6Only where
  | default | both | ipv6Only
  deriving DecidableEq, Repr

/-- `BindIPv6Only::parse`. -/
def BindIPv6Only.parse : Str → Except BadReason BindIPv6Only :=
  ofTable [("default", .default), ("both", .both), ("ipv6-only", .ipv6Only)]

/-! ## Sockets and paths -/

/-- Address family and payload of a `Listen*=` value. -/
inductive SocketAddrSpec where
  | inet (addr : Str)
  | port (port : Nat)
  | unixPath (path : Str)
  | unixAbstract (name : Str)
  | vsock (addr : Str)
  | netlink (family : Str)
  deriving DecidableEq, Repr

/-- `SocketAddrSpec::parse`. -/
def SocketAddrSpec.parse (P : LeafParsers) (value : Str) : Except BadReason SocketAddrSpec :=
  let v := trim value
  if v = [] then .error (.text "empty listen spec".toList)
  else if let some n := parseBelow (2 ^ 16) v then .ok (.port n)
  else if v.head? = some '/' then .ok (.unixPath v)
  else if let some name := stripPrefix "@" v then .ok (.unixAbstract name)
  else if let some addr := stripPrefix "vsock:" v then .ok (.vsock addr)
  else if ["ROUTE", "FIREWALL", "INET", "XFRM", "NETFILTER"].any
      (fun family => (stripPrefix family v).isSome) then .ok (.netlink v)
  else if let some addr := P.socketAddr v then .ok (.inet addr)
  else .error (.text ("cannot parse listen spec ".toList ++ v))

/-- A socket to listen on. -/
inductive ListenSpec where
  | stream (addr : SocketAddrSpec)
  | datagram (addr : SocketAddrSpec)
  | sequentialPacket (addr : SocketAddrSpec)
  | fifo (path : Str)
  | special (path : Str)
  | netlink (family : Str)
  | messageQueue (name : Str)
  | usbFunction (path : Str)
  deriving DecidableEq, Repr

/-- One path to watch. -/
inductive PathWatch where
  | pathExists (path : Str)
  | existsGlob (glob : Str)
  | changed (path : Str)
  | modified (path : Str)
  | directoryNotEmpty (path : Str)
  deriving DecidableEq, Repr

/-! ## Conditions -/

/-- What a condition looks at. -/
inductive ConditionCheck where
  | pathExists (path : Str)
  | pathExistsGlob (glob : Str)
  | pathIsDirectory (path : Str)
  | pathIsSymbolicLink (path : Str)
  | pathIsMountPoint (path : Str)
  | pathIsReadWrite (path : Str)
  | pathIsEncrypted (path : Str)
  | directoryNotEmpty (path : Str)
  | fileNotEmpty (path : Str)
  | fileIsExecutable (path : Str)
  | user (arg : Str)
  | group (arg : Str)
  | host (arg : Str)
  | architecture (arg : Str)
  | virtualization (arg : Str)
  | environment (arg : Str)
  | firstBoot (expected : Bool)
  | kernelCommandLine (arg : Str)
  | kernelVersion (arg : Str)
  | acPower (expected : Bool)
  | needsUpdate (arg : Str)
  | memory (arg : Str)
  | cpus (arg : Str)
  | controlGroupController (arg : Str)
  | security (arg : Str)
  | capability (arg : Str)
  | unknown (key value : Str)
  deriving DecidableEq, Repr

/-- One condition. -/
structure Condition where
  check : ConditionCheck
  negate : Bool
  trigger : Bool
  deriving DecidableEq, Repr

/-- The checks that take any argument. -/
def conditionTable : List (String × (Str → ConditionCheck)) :=
  [("PathExists", .pathExists), ("PathExistsGlob", .pathExistsGlob),
    ("PathIsDirectory", .pathIsDirectory), ("PathIsSymbolicLink", .pathIsSymbolicLink),
    ("PathIsMountPoint", .pathIsMountPoint), ("PathIsReadWrite", .pathIsReadWrite),
    ("PathIsEncrypted", .pathIsEncrypted), ("DirectoryNotEmpty", .directoryNotEmpty),
    ("FileNotEmpty", .fileNotEmpty), ("FileIsExecutable", .fileIsExecutable),
    ("User", .user), ("Group", .group), ("Host", .host), ("Architecture", .architecture),
    ("Virtualization", .virtualization), ("Environment", .environment),
    ("KernelCommandLine", .kernelCommandLine), ("KernelVersion", .kernelVersion),
    ("NeedsUpdate", .needsUpdate), ("Memory", .memory), ("CPUs", .cpus),
    ("ControlGroupController", .controlGroupController), ("Security", .security),
    ("Capability", .capability)]

/-- The marks in front of an argument: negated, trigger, and what is left. `fuel` bounds
their number. -/
def conditionMarks : Nat → Bool → Bool → Str → Bool × Bool × Str
  | 0, neg, trig, v => (neg, trig, v)
  | fuel + 1, neg, trig, v =>
    match v with
    | '|' :: r => conditionMarks fuel neg true (trim r)
    | '!' :: r => conditionMarks fuel (!neg) trig (trim r)
    | _ => (neg, trig, v)

/-- `Condition::parse`. -/
def Condition.parse (key value : Str) : Except BadReason Condition :=
  let (neg, trig, v) := conditionMarks value.length false false (trim value)
  let check : Except BadReason ConditionCheck :=
    if key = "FirstBoot".toList then
      match parseBool v with
      | some b => .ok (.firstBoot b)
      | none => .error (.text ("ConditionFirstBoot expects a boolean, got ".toList ++ v))
    else if key = "ACPower".toList then
      match parseBool v with
      | some b => .ok (.acPower b)
      | none => .error (.text ("ConditionACPower expects a boolean, got ".toList ++ v))
    else
      match conditionTable.find? fun e => e.1.toList = key with
      | some e => .ok (e.2 v)
      | none => .ok (.unknown key v)
  check.map fun check => ⟨check, neg, trig⟩

/-! ## Flags, texts and lists -/

/-- Yes or no, with the reason if it is neither. -/
def readBool (reason : BadReason) (v : Str) : Except BadReason Bool := orBad reason (parseBool v)

/-- Any text, in a field that may be absent. -/
def readText (v : Str) : Except BadReason (Option Str) := .ok (some v)

/-- A value in a field that may be absent. -/
def readSome {α : Type} (read : Str → Except BadReason α) (v : Str) :
    Except BadReason (Option α) := (read v).map some

/-- An unsigned number below a bound. -/
def readBelow (bound : Nat) (reason : BadReason) (v : Str) : Except BadReason Nat :=
  orBad reason (parseBelow bound v)

/-- Seconds, if nothing else is said. -/
def readSeconds (P : LeafParsers) (v : Str) : Except BadReason SdDuration := P.duration v 1

/-- A unit name. -/
def readUnitName (v : Str) : Except BadReason (Option UnitName) :=
  (orBad (.text "unit name".toList) (fromStr v).toOption).map some

/-- An octal mode. -/
def readMode (v : Str) : Except BadReason (Option Nat) :=
  (orBad (.text "octal mode".toList) (parseOctal v)).map some

/-- `parse_units_list`: what is not a unit name is left out. -/
def parseUnitsList (s : Str) : List UnitName :=
  (parseList s).filterMap fun n => (fromStr n).toOption

/-- The tokens of `*ExitStatus=`. -/
def parseExitStatuses (s : Str) : Except BadReason (List ExitStatus) :=
  (parseList s).mapM ExitStatus.parse

/-- A list is empty only where there are only separators. -/
theorem parseList_eq_nil {s : Str} :
    parseList s = [] ↔ ∀ c ∈ s, isWhitespace c = true ∨ c = ',' := by
  have hparts : ∀ t : Str, (splitOn ' ' t).filter (· ≠ []) = [] ↔ ∀ c ∈ t, c = ' ' := by
    intro t
    induction t with
    | nil => exact ⟨fun _ c hc => absurd hc List.not_mem_nil, fun _ => rfl⟩
    | cons c cs ih =>
      by_cases hc : c = ' '
      · have hstep : (splitOn ' ' (c :: cs)).filter (· ≠ []) = (splitOn ' ' cs).filter (· ≠ []) := by
          rw [splitOn, if_pos hc]
          rfl
        rw [hstep, ih, List.forall_mem_cons]
        exact ⟨fun h => ⟨hc, h⟩, fun h => h.2⟩
      · constructor
        · intro h
          rw [splitOn, if_neg hc] at h
          cases hs : splitOn ' ' cs with
          | nil => exact absurd hs (splitOn_ne_nil cs)
          | cons y ys =>
            rw [hs] at h
            exact absurd h (by simp)
        · intro h
          exact absurd (h c List.mem_cons_self) hc
  unfold parseList
  rw [hparts]
  constructor
  · intro h c hc
    have hmap := h _ (List.mem_map_of_mem hc)
    by_cases hsep : isWhitespace c = true ∨ c = ','
    · exact hsep
    · rw [if_neg hsep] at hmap
      exact absurd (.inl (by rw [hmap]; decide)) hsep
  · intro h c hc
    obtain ⟨c', hc', rfl⟩ := List.mem_map.mp hc
    exact if_pos (h c' hc')

theorem parseExitStatuses_eq_nil {s : Str} :
    parseExitStatuses s = .ok [] ↔ ∀ c ∈ s, isWhitespace c = true ∨ c = ',' := by
  unfold parseExitStatuses
  rw [mapM_eq_nil, parseList_eq_nil]

end Systeml.Unit
