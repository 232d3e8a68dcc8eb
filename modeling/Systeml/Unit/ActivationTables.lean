import Systeml.Unit.UnitSections

/-!
# The `[Socket]`, `[Timer]` and `[Path]` sections

The sections of the units that start another one. Eight directives collect into one list
of sockets, five into one list of watches; an element says which directive it is from
(`ListenSpec.key`, `PathWatch.key`).
-/

namespace Systeml.Unit

open Systeml.Lib

/-! ## `[Socket]` -/

/-- The fields of `[Socket]` that hold one value. -/
inductive SocketField where
  | accept | service | maxConnections | maxConnectionsPerSource | backlog
  | keepAlive | keepAliveTimeSec | keepAliveIntervalSec | keepAliveProbes | noDelay | priority
  | deferAcceptSec | receiveBuffer | sendBuffer | ipTos | ipTtl | mark | reusePort | transparent
  | broadcast | passCredentials | passSecurity | passPacketInfo | bindIpv6Only | bindToDevice
  | socketUser | socketGroup | socketMode | directoryMode | removeOnStop | fileDescriptorName
  | triggerLimitIntervalSec | triggerLimitBurst | mqMaxMessages | mqMessageSize
  deriving DecidableEq, Repr

abbrev SocketField.Ty : SocketField → Type
  | .accept | .keepAlive | .noDelay | .reusePort | .transparent | .broadcast | .passCredentials
  | .passSecurity | .passPacketInfo | .removeOnStop => Bool
  | .service => Option UnitName
  | .maxConnections | .maxConnectionsPerSource | .backlog => Nat
  | .keepAliveTimeSec | .keepAliveIntervalSec | .deferAcceptSec
  | .triggerLimitIntervalSec => Option SdDuration
  | .keepAliveProbes | .receiveBuffer | .sendBuffer | .ipTtl | .socketMode | .directoryMode
  | .triggerLimitBurst => Option Nat
  | .priority | .mark | .mqMaxMessages | .mqMessageSize => Option Int
  | .bindIpv6Only => BindIPv6Only
  | .ipTos | .bindToDevice | .socketUser | .socketGroup | .fileDescriptorName => Option Str

/-- `SocketUnit::default`. -/
def SocketField.initial : (f : SocketField) → f.Ty
  | .accept | .keepAlive | .noDelay | .reusePort | .transparent | .broadcast | .passCredentials
  | .passSecurity | .passPacketInfo | .removeOnStop => false
  | .service => none
  | .maxConnections | .maxConnectionsPerSource | .backlog => (0 : Nat)
  | .keepAliveTimeSec | .keepAliveIntervalSec | .deferAcceptSec | .triggerLimitIntervalSec => none
  | .keepAliveProbes | .receiveBuffer | .sendBuffer | .ipTtl | .socketMode | .directoryMode
  | .triggerLimitBurst => none
  | .priority | .mark | .mqMaxMessages | .mqMessageSize => none
  | .bindIpv6Only => .default
  | .ipTos | .bindToDevice | .socketUser | .socketGroup | .fileDescriptorName => none

/-- The fields of `[Socket]` that collect. -/
inductive SocketList where
  | listen | symlinks | passthrough
  deriving DecidableEq, Repr

abbrev SocketList.Elem : SocketList → Type
  | .listen => ListenSpec
  | .symlinks => Str
  -- key and value
  | .passthrough => Str × Str

abbrev socketShape : Shape where
  Field := SocketField
  ListField := SocketList
  Ty := SocketField.Ty
  Elem := SocketList.Elem

/-- The directive that a socket is from. -/
def ListenSpec.key : ListenSpec → String
  | .stream _ => "ListenStream"
  | .datagram _ => "ListenDatagram"
  | .sequentialPacket _ => "ListenSequentialPacket"
  | .fifo _ => "ListenFIFO"
  | .special _ => "ListenSpecial"
  | .netlink _ => "ListenNetlink"
  | .messageQueue _ => "ListenMessageQueue"
  | .usbFunction _ => "ListenUSBFunction"

/-- An address of one kind of socket. -/
def readListen (P : LeafParsers) (mk : SocketAddrSpec → ListenSpec) (v : Str) :
    Except BadReason ListenSpec := (SocketAddrSpec.parse P v).map mk

/-- "bool". -/
def boolReason : BadReason := .text "bool".toList

/-- The directives of `[Socket]`. -/
def socketTable (P : LeafParsers) : List (String × socketShape.Act) :=
  [("ListenStream", .push .listen (readListen P .stream)),
    ("ListenDatagram", .push .listen (readListen P .datagram)),
    ("ListenSequentialPacket", .push .listen (readListen P .sequentialPacket)),
    ("ListenFIFO", .push .listen fun v => .ok (.fifo v)),
    ("ListenSpecial", .push .listen fun v => .ok (.special v)),
    ("ListenNetlink", .push .listen fun v => .ok (.netlink v)),
    ("ListenMessageQueue", .push .listen fun v => .ok (.messageQueue v)),
    ("ListenUSBFunction", .push .listen fun v => .ok (.usbFunction v)),
    ("Accept", .set .accept (readBool boolReason)),
    ("Service", .set .service readUnitName),
    ("MaxConnections", .set .maxConnections (readBelow (2 ^ 32) .u32)),
    ("MaxConnectionsPerSource", .set .maxConnectionsPerSource (readBelow (2 ^ 32) .u32)),
    ("Backlog", .set .backlog (readBelow (2 ^ 32) .u32)),
    ("KeepAlive", .set .keepAlive (readBool boolReason)),
    ("KeepAliveTimeSec", .set .keepAliveTimeSec (readSome (readSeconds P))),
    ("KeepAliveIntervalSec", .set .keepAliveIntervalSec (readSome (readSeconds P))),
    ("KeepAliveProbes", .set .keepAliveProbes (readSome (readBelow (2 ^ 32) .u32))),
    ("NoDelay", .set .noDelay (readBool boolReason)),
    ("Priority", .set .priority (readSome fun v => orBad (.text "i32".toList) (parseI32 v))),
    ("DeferAcceptSec", .set .deferAcceptSec (readSome (readSeconds P))),
    ("ReceiveBuffer",
      .set .receiveBuffer (readSome (readBelow (2 ^ 64) (.text "u64".toList)))),
    ("SendBuffer", .set .sendBuffer (readSome (readBelow (2 ^ 64) (.text "u64".toList)))),
    ("IPTOS", .set .ipTos readText),
    ("IPTTL", .set .ipTtl (readSome (readBelow (2 ^ 32) .u32))),
    ("Mark", .set .mark (readSome fun v => orBad (.text "i32".toList) (parseI32 v))),
    ("ReusePort", .set .reusePort (readBool boolReason)),
    ("Transparent", .set .transparent (readBool boolReason)),
    ("Broadcast", .set .broadcast (readBool boolReason)),
    ("PassCredentials", .set .passCredentials (readBool boolReason)),
    ("PassSecurity", .set .passSecurity (readBool boolReason)),
    ("PassPacketInfo", .set .passPacketInfo (readBool boolReason)),
    ("BindIPv6Only", .set .bindIpv6Only BindIPv6Only.parse),
    ("BindToDevice", .set .bindToDevice readText),
    ("SocketUser", .set .socketUser readText),
    ("SocketGroup", .set .socketGroup readText),
    ("SocketMode", .set .socketMode readMode),
    ("DirectoryMode", .set .directoryMode readMode),
    ("RemoveOnStop", .set .removeOnStop (readBool boolReason)),
    ("Symlinks", .append .symlinks readList),
    ("FileDescriptorName", .set .fileDescriptorName readText),
    ("TriggerLimitIntervalSec", .set .triggerLimitIntervalSec (readSome (readSeconds P))),
    ("TriggerLimitBurst", .set .triggerLimitBurst (readSome (readBelow (2 ^ 32) .u32))),
    ("MessageQueueMaxMessages",
      .set .mqMaxMessages (readSome fun v => orBad (.text "i64".toList) (parseI64 v))),
    ("MessageQueueMessageSize",
      .set .mqMessageSize (readSome fun v => orBad (.text "i64".toList) (parseI64 v)))]

/-- The loop body of `parse_socket`. -/
def socketAction (P : LeafParsers) (key : Str) : socketShape.Act :=
  (tableAction (socketTable P) key).getD (.push .passthrough fun v => .ok (key, v))

def socketReader (P : LeafParsers) : Reader socketShape where
  sec := some "Socket"
  action := socketAction P
  warning := fun key =>
    if key ∈ ["PassCredentials", "PassSecurity", "BindToDevice"].map String.toList then
      some .linuxOnly
    else if (tableAction (socketTable P) key).isSome then none
    else some .unknown
  initial := ⟨SocketField.initial, fun _ => []⟩

/-! ## `[Timer]` -/

/-- The fields of `[Timer]` that hold one value. -/
inductive TimerField where
  | onActiveSec | onBootSec | onStartupSec | onUnitActiveSec | onUnitInactiveSec
  | onClockChange | onTimezoneChange | accuracySec | randomizedDelaySec | fixedRandomDelay
  | persistent | wakeSystem | remainAfterElapse | deferReactivation | unit
  deriving DecidableEq, Repr

abbrev TimerField.Ty : TimerField → Type
  | .onActiveSec | .onBootSec | .onStartupSec | .onUnitActiveSec | .onUnitInactiveSec
  | .accuracySec | .randomizedDelaySec => Option SdDuration
  | .onClockChange | .onTimezoneChange | .fixedRandomDelay | .persistent | .wakeSystem
  | .remainAfterElapse | .deferReactivation => Bool
  | .unit => Option UnitName

/-- The record before any directive, with the default of `parse_timer`. -/
def TimerField.initial : (f : TimerField) → f.Ty
  | .onActiveSec | .onBootSec | .onStartupSec | .onUnitActiveSec | .onUnitInactiveSec
  | .accuracySec | .randomizedDelaySec => none
  | .onClockChange | .onTimezoneChange | .fixedRandomDelay | .persistent | .wakeSystem
  | .deferReactivation => false
  | .remainAfterElapse => true
  | .unit => none

/-- The field of `[Timer]` that collects. -/
inductive TimerList where
  | onCalendar
  deriving DecidableEq, Repr

abbrev timerShape : Shape where
  Field := TimerField
  ListField := TimerList
  Ty := TimerField.Ty
  Elem := fun _ => CalendarSpec

/-- The directives of `[Timer]`. -/
def timerTable (P : LeafParsers) : List (String × timerShape.Act) :=
  [("OnCalendar", .push .onCalendar P.calendar),
    ("OnActiveSec", .set .onActiveSec (readSome (readSeconds P))),
    ("OnBootSec", .set .onBootSec (readSome (readSeconds P))),
    ("OnStartupSec", .set .onStartupSec (readSome (readSeconds P))),
    ("OnUnitActiveSec", .set .onUnitActiveSec (readSome (readSeconds P))),
    ("OnUnitInactiveSec", .set .onUnitInactiveSec (readSome (readSeconds P))),
    ("OnClockChange", .set .onClockChange (readBool boolReason)),
    ("OnTimezoneChange", .set .onTimezoneChange (readBool boolReason)),
    ("AccuracySec", .set .accuracySec (readSome (readSeconds P))),
    ("RandomizedDelaySec", .set .randomizedDelaySec (readSome (readSeconds P))),
    ("FixedRandomDelay", .set .fixedRandomDelay (readBool boolReason)),
    ("Persistent", .set .persistent (readBool boolReason)),
    ("WakeSystem", .set .wakeSystem (readBool boolReason)),
    ("RemainAfterElapse", .set .remainAfterElapse (readBool boolReason)),
    ("DeferReactivation", .set .deferReactivation (readBool boolReason)),
    ("Unit", .set .unit readUnitName)]

/-- The loop body of `parse_timer`. -/
def timerAction (P : LeafParsers) (key : Str) : timerShape.Act :=
  (tableAction (timerTable P) key).getD (.assign [])

def timerReader (P : LeafParsers) : Reader timerShape where
  sec := some "Timer"
  action := timerAction P
  warning := fun key =>
    if (tableAction (timerTable P) key).isSome then none else some .unknown
  initial := ⟨TimerField.initial, fun _ => []⟩

/-! ## `[Path]` -/

/-- The fields of `[Path]` that hold one value. -/
inductive PathField where
  | unit | makeDirectory | directoryMode | triggerLimitIntervalSec | triggerLimitBurst
  deriving DecidableEq, Repr

abbrev PathField.Ty : PathField → Type
  | .unit => Option UnitName
  | .makeDirectory => Bool
  | .directoryMode | .triggerLimitBurst => Option Nat
  | .triggerLimitIntervalSec => Option SdDuration

/-- `PathUnit::default`. -/
def PathField.initial : (f : PathField) → f.Ty
  | .unit => none
  | .makeDirectory => false
  | .directoryMode | .triggerLimitBurst => none
  | .triggerLimitIntervalSec => none

/-- The field of `[Path]` that collects. -/
inductive PathList where
  | watches
  deriving DecidableEq, Repr

abbrev pathShape : Shape where
  Field := PathField
  ListField := PathList
  Ty := PathField.Ty
  Elem := fun _ => PathWatch

/-- The directive that a watch is from. -/
def PathWatch.key : PathWatch → String
  | .pathExists _ => "PathExists"
  | .existsGlob _ => "PathExistsGlob"
  | .changed _ => "PathChanged"
  | .modified _ => "PathModified"
  | .directoryNotEmpty _ => "DirectoryNotEmpty"

/-- The directives of `[Path]`. -/
def pathTable (P : LeafParsers) : List (String × pathShape.Act) :=
  [("PathExists", .push .watches fun v => .ok (.pathExists v)),
    ("PathExistsGlob", .push .watches fun v => .ok (.existsGlob v)),
    ("PathChanged", .push .watches fun v => .ok (.changed v)),
    ("PathModified", .push .watches fun v => .ok (.modified v)),
    ("DirectoryNotEmpty", .push .watches fun v => .ok (.directoryNotEmpty v)),
    ("Unit", .set .unit readUnitName),
    ("MakeDirectory", .set .makeDirectory (readBool boolReason)),
    ("DirectoryMode", .set .directoryMode readMode),
    ("TriggerLimitIntervalSec", .set .triggerLimitIntervalSec (readSome (readSeconds P))),
    ("TriggerLimitBurst", .set .triggerLimitBurst (readSome (readBelow (2 ^ 32) .u32)))]

/-- The loop body of `parse_path`. -/
def pathAction (P : LeafParsers) (key : Str) : pathShape.Act :=
  (tableAction (pathTable P) key).getD (.assign [])

def pathReader (P : LeafParsers) : Reader pathShape where
  sec := some "Path"
  action := pathAction P
  warning := fun key =>
    if (tableAction (pathTable P) key).isSome then none else some .unknown
  initial := ⟨PathField.initial, fun _ => []⟩

end Systeml.Unit
