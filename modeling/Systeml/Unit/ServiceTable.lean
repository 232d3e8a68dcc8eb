import Systeml.Unit.UnitSections

/-!
# The `[Service]` section as a whole

Every field of the typed service and every directive that reaches one. A directive that is
only known on Linux, or not known at all, is kept as it is written.
-/

namespace Systeml.Unit

open Systeml.Lib

/-- The fields of `[Service]` that hold one value. -/
inductive ServiceField where
  | serviceType | remainAfterExit | guessMainPid | pidFile | busName | notifyAccess
  | restart | restartSec | restartSteps | restartMaxDelaySec
  | timeoutStartSec | timeoutStopSec | timeoutAbortSec
  | runtimeMaxSec | runtimeRandomExtraSec | watchdogSec
  | startLimitIntervalSec | startLimitBurst | startLimitAction
  | workingDirectory | rootDirectory | user | group | umask | nice
  | standardInput | standardOutput | standardError
  | killMode | killSignal | restartKillSignal | finalKillSignal | watchdogSignal
  | sendSigkill | sendSighup
  | limitNofile | limitNproc | limitCore | limitAs
  | limitData | limitStack | limitFsize | limitCpu
  | limitRss | limitMemlock | limitMsgqueue | limitNice
  | limitRtprio | limitRttime | limitSigpending | limitLocks
  | fdStoreMax | fdStorePreserve
  deriving DecidableEq, Repr

abbrev ServiceField.Ty : ServiceField → Type
  | .serviceType => ServiceType
  | .remainAfterExit | .guessMainPid | .sendSigkill | .sendSighup => Bool
  | .notifyAccess => NotifyAccess
  | .restart => Restart
  | .restartSec => SdDuration
  | .restartSteps | .startLimitBurst | .fdStoreMax => Nat
  | .restartMaxDelaySec | .timeoutStartSec | .timeoutStopSec | .timeoutAbortSec | .runtimeMaxSec
  | .runtimeRandomExtraSec | .watchdogSec | .startLimitIntervalSec => Option SdDuration
  | .umask => Option Nat
  | .nice => Option Int
  | .standardInput | .standardOutput | .standardError => StandardStream
  | .killMode => KillMode
  | .pidFile | .busName | .startLimitAction | .workingDirectory | .rootDirectory | .user | .group
  | .killSignal | .restartKillSignal | .finalKillSignal | .watchdogSignal
  | .fdStorePreserve => Option Str
  | _ => Option RLimit

/-- The record before any directive, with the two defaults of `parse_service`. -/
def ServiceField.initial : (f : ServiceField) → f.Ty
  | .serviceType => .simple
  | .remainAfterExit | .sendSigkill | .sendSighup => false
  | .guessMainPid => true
  | .notifyAccess => .none
  | .restart => .no
  | .restartSec => .finite 100000000
  | .restartSteps | .startLimitBurst | .fdStoreMax => (0 : Nat)
  | .restartMaxDelaySec | .timeoutStartSec | .timeoutStopSec | .timeoutAbortSec | .runtimeMaxSec
  | .runtimeRandomExtraSec | .watchdogSec | .startLimitIntervalSec => none
  | .umask | .nice => none
  | .standardInput | .standardOutput | .standardError => .inherit
  | .killMode => .controlGroup
  | .pidFile | .busName | .startLimitAction | .workingDirectory | .rootDirectory | .user | .group
  | .killSignal | .restartKillSignal | .finalKillSignal | .watchdogSignal
  | .fdStorePreserve => none
  | .limitNofile | .limitNproc | .limitCore | .limitAs
  | .limitData | .limitStack | .limitFsize | .limitCpu
  | .limitRss | .limitMemlock | .limitMsgqueue | .limitNice
  | .limitRtprio | .limitRttime | .limitSigpending | .limitLocks => none

/-- The fields of `[Service]` that collect. -/
inductive ServiceList where
  | execStartPre | execStart | execStartPost | execCondition | execReload | execStop | execStopPost
  | environment | environmentFiles | passEnvironment | unsetEnvironment | supplementaryGroups
  | successExitStatus | restartPreventExitStatus | restartForceExitStatus
  | sockets
  | passthrough
  deriving DecidableEq, Repr

abbrev ServiceList.Elem : ServiceList → Type
  | .execStartPre | .execStart | .execStartPost | .execCondition | .execReload | .execStop
  | .execStopPost => ExecCommand
  | .environment => Str × Str
  | .environmentFiles => EnvironmentFile
  | .passEnvironment | .unsetEnvironment | .supplementaryGroups | .sockets => Str
  | .successExitStatus | .restartPreventExitStatus | .restartForceExitStatus => ExitStatus
  -- section, key and value
  | .passthrough => Str × Str × Str

abbrev serviceShape : Shape where
  Field := ServiceField
  ListField := ServiceList
  Ty := ServiceField.Ty
  Elem := ServiceList.Elem

/-- `is_linux_only`, of `[Service]`. -/
def linuxOnlyKeys : List String :=
  ["CPUAccounting", "CPUWeight", "StartupCPUWeight", "CPUQuota", "CPUQuotaPeriodSec",
    "AllowedCPUs", "StartupAllowedCPUs", "MemoryAccounting", "MemoryMin", "MemoryLow",
    "MemoryHigh", "MemoryMax", "MemoryLimit", "MemorySwapMax", "MemoryZSwapMax",
    "TasksAccounting", "TasksMax", "IOAccounting", "IOWeight", "StartupIOWeight",
    "IODeviceWeight", "IOReadBandwidthMax", "IOWriteBandwidthMax", "IOReadIOPSMax",
    "IOWriteIOPSMax", "IODeviceLatencyTargetSec", "BlockIOAccounting", "BlockIOWeight",
    "BlockIODeviceWeight", "BlockIOReadBandwidth", "BlockIOWriteBandwidth", "IPAccounting",
    "IPAddressAllow", "IPAddressDeny", "IPIngressFilterPath", "IPEgressFilterPath", "DeviceAllow",
    "DevicePolicy", "Slice", "Delegate", "DelegateSubgroup", "DisableControllers",
    "ManagedOOMSwap", "ManagedOOMMemoryPressure", "ManagedOOMMemoryPressureLimit",
    "ManagedOOMPreference", "OOMPolicy", "OOMScoreAdjust", "PrivateTmp", "PrivateDevices",
    "PrivateNetwork", "NetworkNamespacePath", "PrivateIPC", "IPCNamespacePath", "PrivateUsers",
    "PrivateMounts", "MountFlags", "ProtectSystem", "ProtectHome", "ProtectKernelTunables",
    "ProtectKernelModules", "ProtectKernelLogs", "ProtectClock", "ProtectControlGroups",
    "ProtectHostname", "ProtectProc", "ProcSubset", "RestrictNamespaces", "BindPaths",
    "BindReadOnlyPaths", "ReadOnlyPaths", "ReadWritePaths", "InaccessiblePaths", "ExecPaths",
    "NoExecPaths", "TemporaryFileSystem", "MountAPIVFS", "MountImages", "RootImage", "RootHash",
    "RootHashSignature", "RootImageOptions", "RootVerity", "ExtensionDirectories",
    "ExtensionImages", "CapabilityBoundingSet", "AmbientCapabilities", "SecureBits",
    "NoNewPrivileges", "SystemCallFilter", "SystemCallErrorNumber", "SystemCallArchitectures",
    "SystemCallLog", "RestrictAddressFamilies", "RestrictFileSystems",
    "RestrictNetworkInterfaces", "RestrictRealtime", "RestrictSUIDSGID", "LockPersonality",
    "MemoryDenyWriteExecute", "RemoveIPC", "Personality", "KeyringMode", "SELinuxContext",
    "AppArmorProfile", "SmackProcessLabel", "DynamicUser", "PAMName", "AuditMessage"]

/-- `is_known_passthrough`. -/
def passthroughKeys : List String :=
  ["TTYPath", "TTYReset", "TTYVHangup", "TTYVTDisallocate", "TTYColumns", "TTYRows",
    "SyslogIdentifier", "SyslogFacility", "SyslogLevel", "SyslogLevelPrefix", "LogExtraFields",
    "LogFilterPatterns", "LogLevelMax", "LogNamespace", "LogRateLimitIntervalSec",
    "LogRateLimitBurst", "RuntimeDirectory", "RuntimeDirectoryMode", "RuntimeDirectoryPreserve",
    "StateDirectory", "StateDirectoryMode", "CacheDirectory", "CacheDirectoryMode",
    "LogsDirectory", "LogsDirectoryMode", "ConfigurationDirectory", "ConfigurationDirectoryMode"]

/-- `EnvironmentFile::parse`, which refuses nothing. -/
def readEnvironmentFile (v : Str) : Except BadReason EnvironmentFile := .ok (.parse v)

/-- The other directives of `[Service]`. -/
def serviceTable (P : LeafParsers) : List (String × serviceShape.Act) :=
  [("Type", .set .serviceType ServiceType.parse),
    ("RemainAfterExit", .set .remainAfterExit (readBool .expectedBool)),
    ("GuessMainPID", .set .guessMainPid (readBool .expectedBool)),
    ("PIDFile", .set .pidFile readText),
    ("BusName", .set .busName readText),
    ("NotifyAccess", .set .notifyAccess NotifyAccess.parse),
    ("ExecStartPre", .push .execStartPre ExecCommand.parse),
    ("ExecStart", .push .execStart ExecCommand.parse),
    ("ExecStartPost", .push .execStartPost ExecCommand.parse),
    ("ExecCondition", .push .execCondition ExecCommand.parse),
    ("ExecReload", .push .execReload ExecCommand.parse),
    ("ExecStop", .push .execStop ExecCommand.parse),
    ("ExecStopPost", .push .execStopPost ExecCommand.parse),
    ("Restart", .set .restart Restart.parse),
    ("RestartSec", .set .restartSec (readSeconds P)),
    ("RestartSteps", .set .restartSteps (readBelow (2 ^ 32) .u32)),
    ("RestartMaxDelaySec", .set .restartMaxDelaySec (readSome (readSeconds P))),
    ("TimeoutStartSec", .set .timeoutStartSec (readSome (readSeconds P))),
    ("TimeoutStopSec", .set .timeoutStopSec (readSome (readSeconds P))),
    ("TimeoutAbortSec", .set .timeoutAbortSec (readSome (readSeconds P))),
    ("TimeoutSec", .assign [⟨.timeoutStartSec, readSome (readSeconds P)⟩,
      ⟨.timeoutStopSec, readSome (readSeconds P)⟩]),
    ("RuntimeMaxSec", .set .runtimeMaxSec (readSome (readSeconds P))),
    ("RuntimeRandomizedExtraSec", .set .runtimeRandomExtraSec (readSome (readSeconds P))),
    ("WatchdogSec", .set .watchdogSec (readSome (readSeconds P))),
    ("StartLimitIntervalSec", .set .startLimitIntervalSec (readSome (readSeconds P))),
    ("StartLimitInterval", .set .startLimitIntervalSec (readSome (readSeconds P))),
    ("StartLimitBurst", .set .startLimitBurst (readBelow (2 ^ 32) .u32)),
    ("StartLimitAction", .set .startLimitAction readText),
    ("Environment", .append .environment parseEnvironmentLine),
    ("EnvironmentFile", .push .environmentFiles readEnvironmentFile),
    ("PassEnvironment", .append .passEnvironment readList),
    ("UnsetEnvironment", .append .unsetEnvironment readList),
    ("WorkingDirectory", .set .workingDirectory readText),
    ("RootDirectory", .set .rootDirectory readText),
    ("User", .set .user readText),
    ("Group", .set .group readText),
    ("SupplementaryGroups", .append .supplementaryGroups readList),
    ("UMask", .set .umask
      (readSome fun v => orBad (.text "octal mode".toList) (parseUmask v))),
    ("Nice", .set .nice (readSome fun v => orBad (.text "i32".toList) (parseI32 v))),
    ("StandardInput", .set .standardInput StandardStream.parse),
    ("StandardOutput", .set .standardOutput StandardStream.parse),
    ("StandardError", .set .standardError StandardStream.parse),
    ("KillMode", .set .killMode KillMode.parse),
    ("KillSignal", .set .killSignal (readSome validateSignalName)),
    ("RestartKillSignal", .set .restartKillSignal (readSome validateSignalName)),
    ("FinalKillSignal", .set .finalKillSignal (readSome validateSignalName)),
    ("WatchdogSignal", .set .watchdogSignal (readSome validateSignalName)),
    ("SendSIGKILL", .set .sendSigkill (readBool .expectedBool)),
    ("SendSIGHUP", .set .sendSighup (readBool .expectedBool)),
    ("SuccessExitStatus", .append .successExitStatus parseExitStatuses),
    ("RestartPreventExitStatus", .append .restartPreventExitStatus parseExitStatuses),
    ("RestartForceExitStatus", .append .restartForceExitStatus parseExitStatuses),
    ("LimitNOFILE", .set .limitNofile (readSome RLimit.parse)),
    ("LimitNPROC", .set .limitNproc (readSome RLimit.parse)),
    ("LimitCORE", .set .limitCore (readSome RLimit.parse)),
    ("LimitAS", .set .limitAs (readSome RLimit.parse)),
    ("LimitDATA", .set .limitData (readSome RLimit.parse)),
    ("LimitSTACK", .set .limitStack (readSome RLimit.parse)),
    ("LimitFSIZE", .set .limitFsize (readSome RLimit.parse)),
    ("LimitCPU", .set .limitCpu (readSome RLimit.parse)),
    ("LimitRSS", .set .limitRss (readSome RLimit.parse)),
    ("LimitMEMLOCK", .set .limitMemlock (readSome RLimit.parse)),
    ("LimitMSGQUEUE", .set .limitMsgqueue (readSome RLimit.parse)),
    ("LimitNICE", .set .limitNice (readSome RLimit.parse)),
    ("LimitRTPRIO", .set .limitRtprio (readSome RLimit.parse)),
    ("LimitRTTIME", .set .limitRttime (readSome RLimit.parse)),
    ("LimitSIGPENDING", .set .limitSigpending (readSome RLimit.parse)),
    ("LimitLOCKS", .set .limitLocks (readSome RLimit.parse)),
    ("Sockets", .append .sockets readList),
    ("FileDescriptorStoreMax", .set .fdStoreMax (readBelow (2 ^ 32) .u32)),
    ("FileDescriptorStorePreserve", .set .fdStorePreserve readText)]

/-- A directive that is kept as it is written. -/
def servicePassthrough (key : Str) : serviceShape.Act :=
  .push .passthrough fun v => .ok ("Service".toList, key, v)

/-- The loop body of `parse_service`. -/
def serviceAction (P : LeafParsers) (key : Str) : serviceShape.Act :=
  if key ∈ linuxOnlyKeys.map String.toList then servicePassthrough key
  else if key ∈ passthroughKeys.map String.toList then servicePassthrough key
  else (tableAction (serviceTable P) key).getD (servicePassthrough key)

def serviceReader (P : LeafParsers) : Reader serviceShape where
  sec := some "Service"
  action := serviceAction P
  warning := fun key =>
    if key ∈ linuxOnlyKeys.map String.toList then some .linuxOnly
    else if key ∈ passthroughKeys.map String.toList then none
    else if (tableAction (serviceTable P) key).isSome then none
    else some .unknown
  initial := ⟨ServiceField.initial, fun _ => []⟩

end Systeml.Unit
