import Systeml.Unit.ActivationTables

/-!
# Listeners and their names

`bindAll` opens what a socket unit listens on, in order, and gives each listener a name;
`installEnv` announces the number of listeners and their names, joined by colons. The
names can be told apart again exactly when none holds a colon (`decodes_iff`). The name
of an internet address always holds one, so without `FileDescriptorName=` only paths
without colons can be listened on (`fdNames_decode_iff`).

What the system is asked for is an `OpenRequest`; its answers, a descriptor or a
failure, are a parameter.
-/

namespace Systeml.Runtime

open Systeml.Lib Systeml.Unit

/-! ## Binding -/

/-- The fields of `[Socket]`. -/
abbrev SocketUnit := Record SocketField.Ty SocketList.Elem

inductive SockType where
  | stream | datagram | seqPacket
  deriving DecidableEq, Repr

/-- The options set on an internet socket. -/
structure TcpOpts where
  reusePort : Bool
  noDelay : Bool
  keepAlive : Bool
  sendBuffer : Option Nat
  receiveBuffer : Option Nat
  deriving DecidableEq, Repr

/-- What the system is asked to open: the address, the backlog if it is listened on, the
mode of what is created. -/
inductive OpenRequest where
  | inet4 (ip port : Str) (sty : SockType) (backlog : Option Nat) (opts : TcpOpts)
  | inet6 (ip port : Str) (sty : SockType) (backlog : Option Nat) (opts : TcpOpts)
  | unix (path : Str) (sty : SockType) (backlog mode : Option Nat)
  | fifo (path : Str) (mode : Nat)
  | special (path : Str)
  deriving DecidableEq, Repr

/-- One realised listening socket. -/
structure Listener where
  fd : Nat
  removeOnStop : Option Str
  /-- Friendly name for `LISTEN_FDNAMES=`. -/
  name : Str
  deriving DecidableEq, Repr

/-- A number as it prints. -/
def digits (n : Nat) : Str := Nat.toDigits 10 n

/-- An internet address, with its parts as they print. -/
inductive SocketAddr where
  | v4 (ip port : Str)
  | v6 (ip port : Str)
  deriving DecidableEq, Repr

/-- The parts of a printed address. The scope of an IPv6 address is not part of its ip. -/
def SocketAddr.ofPrinted (addr : Str) : Option SocketAddr :=
  match addr with
  | '[' :: rest =>
    match splitOnce ']' rest with
    | some (ip, ':' :: port) => some (.v6 (ip.takeWhile (· ≠ '%')) port)
    | _ => none
  | _ => (splitOnce ':' addr).map fun parts => .v4 parts.1 parts.2

section

variable (sys : OpenRequest → Option Nat) (unit : SocketUnit)

def tcpOpts : TcpOpts where
  reusePort := unit.val .reusePort
  noDelay := unit.val .noDelay
  keepAlive := unit.val .keepAlive
  sendBuffer := unit.val .sendBuffer
  receiveBuffer := unit.val .receiveBuffer

/-- The path is removed when the unit stops, if it says so. -/
def removeIfAsked (path : Str) : Option Str := if unit.val .removeOnStop then some path else none

/-- A datagram socket is not listened on. -/
def backlogOf (sty : SockType) (backlog : Nat) : Option Nat :=
  if sty = .datagram then none else some backlog

def bindInetV4 (ip port : Str) (sty : SockType) (backlog : Nat) : Option Listener :=
  (sys (.inet4 ip port sty (backlogOf sty backlog) (tcpOpts unit))).map fun fd =>
    ⟨fd, none, ip ++ ":".toList ++ port⟩

def bindInetV6 (ip port : Str) (sty : SockType) (backlog : Nat) : Option Listener :=
  (sys (.inet6 ip port sty (backlogOf sty backlog) (tcpOpts unit))).map fun fd =>
    ⟨fd, none, "[".toList ++ ip ++ "]:".toList ++ port⟩

def bindUnix (path : Str) (sty : SockType) (backlog : Option Nat) : Option Listener :=
  (sys (.unix path sty backlog (unit.val .socketMode))).map fun fd =>
    ⟨fd, removeIfAsked unit path, path⟩

/-- The default mode is 0660. -/
def bindFifo (path : Str) : Option Listener :=
  (sys (.fifo path ((unit.val .socketMode).getD 432))).map fun fd =>
    ⟨fd, removeIfAsked unit path, path⟩

def bindSpecial (path : Str) : Option Listener :=
  (sys (.special path)).map fun fd => ⟨fd, none, path⟩

/-- `bind_stream` and `bind_datagram`, which has backlog 0. A bare port is bound on the
unspecified IPv4 address only. -/
def bindAddr (addr : SocketAddrSpec) (sty : SockType) (backlog : Nat) : Option Listener :=
  match addr with
  | .inet addr =>
    match SocketAddr.ofPrinted addr with
    | some (.v4 ip port) => bindInetV4 sys unit ip port sty backlog
    | some (.v6 ip port) => bindInetV6 sys unit ip port sty backlog
    | none => none
  | .port port => bindInetV4 sys unit "0.0.0.0".toList (digits port) sty backlog
  | .unixPath path => bindUnix sys unit path sty (backlogOf sty backlog)
  | .unixAbstract _ | .vsock _ | .netlink _ => none

/-- Only on paths. -/
def bindSeqpacket (addr : SocketAddrSpec) (backlog : Nat) : Option Listener :=
  match addr with
  | .unixPath path => bindUnix sys unit path .seqPacket (some backlog)
  | _ => none

def bindOne (spec : ListenSpec) : Option Listener :=
  let backlog := if unit.val .backlog = (0 : Nat) then 128 else unit.val .backlog
  match spec with
  | .stream addr => bindAddr sys unit addr .stream backlog
  | .datagram addr => bindAddr sys unit addr .datagram 0
  | .sequentialPacket addr => bindSeqpacket sys unit addr backlog
  | .fifo path => bindFifo sys unit path
  | .special path => bindSpecial sys path
  | .netlink _ | .messageQueue _ | .usbFunction _ => none

/-- The name a listener is given in the end: that of the unit, or its own, or its
position. -/
def named (i : Nat) (l : Listener) : Listener :=
  match unit.val .fileDescriptorName with
  | some name => { l with name := name }
  | none => if l.name = [] then { l with name := "fd".toList ++ digits i } else l

end

/-- Bind from position `i` on, up to the first failure. -/
def bindFrom (sys : Nat → OpenRequest → Option Nat) (unit : SocketUnit) :
    Nat → List ListenSpec → Option (List Listener)
  | _, [] => some []
  | i, spec :: rest => do
    let l ← bindOne (sys i) unit spec
    let ls ← bindFrom sys unit (i + 1) rest
    return named unit i l :: ls

/-- Bind every `Listen*=` of the unit, in declared order. `sys i` answers for entry `i`. -/
def bindAll (sys : Nat → OpenRequest → Option Nat) (unit : SocketUnit) : Option (List Listener) :=
  bindFrom sys unit 0 (unit.list .listen)

/-- The variables `install` sets. -/
def installEnv (listeners : List Listener) : List (String × Str) :=
  if listeners = [] then []
  else [("LISTEN_FDS", digits listeners.length),
    ("LISTEN_FDNAMES", List.intercalate [':'] (listeners.map Listener.name))]

/-! ## Names -/

/-- The variables tell the number of the listeners and the name of each. -/
def Decodes (listeners : List Listener) : Prop :=
  ∀ fds names, ("LISTEN_FDS", fds) ∈ installEnv listeners →
    ("LISTEN_FDNAMES", names) ∈ installEnv listeners →
    splitOn ':' names = listeners.map Listener.name ∧ fds = digits listeners.length

theorem decodes_iff {listeners : List Listener} :
    Decodes listeners ↔ ∀ l ∈ listeners, ':' ∉ l.name := by
  unfold Decodes installEnv
  by_cases hne : listeners = []
  · subst hne
    simp
  rw [if_neg hne]
  constructor
  · intro h l hl
    have hsplit := (h _ _ (List.mem_cons_self ..)
      (List.mem_cons_of_mem _ (List.mem_singleton_self _))).1
    exact notMem_of_mem_splitOn (hsplit ▸ List.mem_map_of_mem hl)
  · intro h fds names hfds hnames
    have hfds : fds = digits listeners.length := by simpa using hfds
    have hnames : names = List.intercalate [':'] (listeners.map Listener.name) := by
      simpa using hnames
    refine ⟨?_, hfds⟩
    rw [hnames]
    refine splitOn_intercalate (by simpa using hne) fun name hname => ?_
    obtain ⟨l, hl, rfl⟩ := List.mem_map.mp hname
    exact h l hl

/-- The path a listener is named after. -/
def pathOf : ListenSpec → Option Str
  | .stream (.unixPath path) | .datagram (.unixPath path) | .sequentialPacket (.unixPath path)
  | .fifo path | .special path => some path
  | _ => none

/-- An entry has no colon in its name: the unit names it and uses none, or it is named
after a path without one. -/
def Colonless (unit : SocketUnit) (spec : ListenSpec) : Prop :=
  (∃ name, unit.val .fileDescriptorName = some name ∧ ':' ∉ name) ∨
    unit.val .fileDescriptorName = none ∧ ∃ path, pathOf spec = some path ∧ ':' ∉ path

theorem colon_notMem_digits (n : Nat) : ':' ∉ digits n := by
  intro h
  have hdigit := Nat.isDigit_of_mem_toDigits (by decide) (by decide) h
  exact absurd hdigit (by decide)

section

variable {sys : OpenRequest → Option Nat} {unit : SocketUnit} {l : Listener}

/-- What a listener is called before the unit names it. -/
theorem bindAddr_name {addr : SocketAddrSpec} {sty : SockType} {backlog : Nat}
    (h : bindAddr sys unit addr sty backlog = some l) :
    (∃ path, addr = .unixPath path ∧ l.name = path) ∨
      (∀ path, addr ≠ .unixPath path) ∧ ':' ∈ l.name := by
  unfold bindAddr at h
  split at h
  next addr =>
    refine Or.inr ⟨by simp, ?_⟩
    split at h
    next =>
      obtain ⟨fd, -, rfl⟩ := Option.map_eq_some_iff.mp h
      simp
    next =>
      obtain ⟨fd, -, rfl⟩ := Option.map_eq_some_iff.mp h
      simp
    next => exact absurd h (by simp)
  next port =>
    obtain ⟨fd, -, rfl⟩ := Option.map_eq_some_iff.mp h
    exact Or.inr ⟨by simp, by simp⟩
  next path =>
    obtain ⟨fd, -, rfl⟩ := Option.map_eq_some_iff.mp h
    exact Or.inl ⟨path, rfl, rfl⟩
  all_goals exact absurd h (by simp)

/-- A listener is called after its path, or its name holds a colon. -/
theorem bindOne_name {spec : ListenSpec} (h : bindOne sys unit spec = some l) :
    pathOf spec = some l.name ∨ pathOf spec = none ∧ ':' ∈ l.name := by
  simp only [bindOne] at h
  cases spec with
  | stream addr | datagram addr =>
    rcases bindAddr_name h with ⟨path, rfl, hname⟩ | ⟨hno, hcolon⟩
    · exact Or.inl (by rw [hname]; rfl)
    · refine Or.inr ⟨?_, hcolon⟩
      cases addr with
      | unixPath path => exact absurd rfl (hno path)
      | inet | port | unixAbstract | vsock | netlink => rfl
  | sequentialPacket addr =>
    cases addr with
    | unixPath path =>
      obtain ⟨fd, -, rfl⟩ := Option.map_eq_some_iff.mp h
      exact Or.inl rfl
    | inet | port | unixAbstract | vsock | netlink => exact absurd h (by simp [bindSeqpacket])
  | fifo path | special path =>
    obtain ⟨fd, -, rfl⟩ := Option.map_eq_some_iff.mp h
    exact Or.inl rfl
  | netlink | messageQueue | usbFunction => exact absurd h (by simp)

theorem named_colon {spec : ListenSpec} (h : bindOne sys unit spec = some l) (i : Nat) :
    ':' ∉ (named unit i l).name ↔ Colonless unit spec := by
  unfold named Colonless
  split
  next name hname => simp [hname]
  next hnone =>
    rw [hnone]
    rcases bindOne_name h with hpath | ⟨hpath, hcolon⟩
    · by_cases hempty : l.name = []
      · -- an empty path: the position is used, and digits are no colons
        rw [if_pos hempty, hpath, hempty]
        simp [colon_notMem_digits]
      · rw [if_neg hempty, hpath]
        simp
    · have hne : l.name ≠ [] := List.ne_nil_of_mem hcolon
      rw [if_neg hne, hpath]
      simp [hcolon]

end

theorem bindFrom_colon {sys : Nat → OpenRequest → Option Nat} {unit : SocketUnit} :
    ∀ {i : Nat} {specs : List ListenSpec} {ls : List Listener},
      bindFrom sys unit i specs = some ls →
      ((∀ l ∈ ls, ':' ∉ l.name) ↔ ∀ spec ∈ specs, Colonless unit spec)
  | _, [], ls, h => by
    obtain rfl := Option.some.inj h
    simp
  | i, spec :: rest, ls, h => by
    obtain ⟨l, hl, h⟩ := Option.bind_eq_some_iff.mp h
    obtain ⟨ls', hls, h⟩ := Option.bind_eq_some_iff.mp h
    obtain rfl := Option.some.inj h
    rw [List.forall_mem_cons, List.forall_mem_cons, named_colon hl i, bindFrom_colon hls]

/-- **`LISTEN_FDNAMES` decodes to one name per descriptor** exactly when the unit gives
a name without a colon, or listens on paths without colons only. -/
theorem fdNames_decode_iff (sys : Nat → OpenRequest → Option Nat) (unit : SocketUnit)
    (listeners : List Listener) (h : bindAll sys unit = some listeners) :
    Decodes listeners ↔ ∀ spec ∈ unit.list .listen, Colonless unit spec :=
  decodes_iff.trans (bindFrom_colon h)

/-- Requests are answered with the descriptors from 7 on. -/
def anyFd : Nat → OpenRequest → Option Nat := fun i _ => some (7 + i)

/-- A unit that listens on these addresses. -/
def listenOn (addrs : List SocketAddrSpec) : SocketUnit where
  val := SocketField.initial
  list := fun
    | .listen => addrs.map .stream
    | .symlinks => []
    | .passthrough => []

theorem fdNames_decode_iff_path :
    Decodes [⟨7, none, "/s".toList⟩, ⟨8, none, "/t".toList⟩] ↔
      ∀ spec ∈ (listenOn [.unixPath "/s".toList, .unixPath "/t".toList]).list .listen,
        Colonless (listenOn [.unixPath "/s".toList, .unixPath "/t".toList]) spec :=
  fdNames_decode_iff anyFd (listenOn [.unixPath "/s".toList, .unixPath "/t".toList]) _ rfl

/-- `ListenStream=80` is named `0.0.0.0:80`, two names to a reader. -/
theorem not_fdNames_decode : ¬ ∀ (sys : Nat → OpenRequest → Option Nat) (unit : SocketUnit)
    (listeners : List Listener), bindAll sys unit = some listeners → Decodes listeners := by
  intro h
  have hdec := h anyFd (listenOn [.port 80]) [⟨7, none, "0.0.0.0:80".toList⟩] (by decide)
  exact decodes_iff.mp hdec ⟨7, none, "0.0.0.0:80".toList⟩ (by simp) (by decide)

end Systeml.Runtime
