import Systeml.Runtime.Expand

/-!
# The command of a child

`build_command` makes the process out of a command line. For an ordinary line the program
is the first word and the rest are its arguments; for a line with `@` all words are passed
as arguments, and the program is a word more in front of them.
-/

namespace Systeml.Runtime

open Systeml.Lib Systeml.Unit

/-! ## Streams and directories -/

/-- How a file is opened. -/
inductive Access where
  | readWrite | truncate | append
  deriving DecidableEq, Repr

/-- What a stream of a child is connected to. -/
inductive Stdio where
  | inherit
  | file (access : Access) (path : Str)
  | piped
  deriving DecidableEq, Repr

/-- What the machine answers: the home directory, and whether a file can be opened. -/
structure Host where
  home : Option Str
  opens : Access → Str → Bool

/-- Why there is no command. -/
inductive CommandError where
  | emptyArgv
  /-- `HOME` is not set, and `~` cannot be expanded. -/
  | noHome
  | cannotOpen (path : Str)
  deriving DecidableEq, Repr

/-- `resolve_working_dir`. -/
def resolveWorkingDir (host : Host) (p : Str) : Except CommandError Str :=
  if p = ['~'] then
    match host.home with
    | some h => .ok h
    | none => .error .noHome
  else match stripPrefix "~/" p with
    | some rest =>
      match host.home with
      | some h => .ok (joinPath h rest)
      | none => .error .noHome
    | none => .ok p

def openFile (host : Host) (access : Access) (path : Str) : Except CommandError Stdio :=
  if host.opens access path then .ok (.file access path) else .error (.cannotOpen path)

/-- `open_stream_stdio`. -/
def openStreamStdio (host : Host) : StandardStream → Except CommandError Stdio
  | .inherit => .ok .inherit
  | .null => openFile host .readWrite "/dev/null".toList
  | .tty =>
    if host.opens .readWrite "/dev/tty".toList then .ok (.file .readWrite "/dev/tty".toList)
    else .ok .inherit
  | .file p | .truncate p => openFile host .truncate p
  | .append p => openFile host .append p
  -- a socket is put in the place of this by the caller
  | .socket | .fd _ => openFile host .readWrite "/dev/null".toList
  | .journal _ | .linuxOnly _ => .ok .piped

/-! ## Commands -/

/-- What a child does before it becomes the program, besides a session of its own. -/
structure PreExec where
  umask : Option Nat
  dropsPrivileges : Bool
  user : Option Str
  group : Option Str
  deriving DecidableEq, Repr

/-- A process that is ready to spawn. -/
structure Command where
  program : Str
  args : List Str
  env : Vars
  currentDir : Option Str
  stdin : Stdio
  stdout : Stdio
  stderr : Stdio
  preExec : PreExec

/-- The argument vector that the child sees. -/
def Command.argv (c : Command) : List Str := c.program :: c.args

/-- `substitute_argv`. -/
def substituteArgv (cmd : ExecCommand) (env : Vars) : List Str :=
  if cmd.flags.noEnvSubst then cmd.argv else cmd.argv.map (expandVars env)

/-- The directory that a child starts in. -/
def childDir (host : Host) : Option Str → Except CommandError (Option Str)
  | some wd => (resolveWorkingDir host wd).map some
  | none => .ok none

/-- `build_command`, without the name of the unit, which is only logged. -/
def buildCommand (host : Host) (cmd : ExecCommand) (svc : serviceShape.Rec) (env : Vars)
    (extraEnv : List (Str × Str)) : Except CommandError Command :=
  match substituteArgv cmd env with
  | [] => .error .emptyArgv
  | first :: rest => do
    let program := if cmd.flags.setArgv0 then cmd.program else first
    let argvRest := if cmd.flags.setArgv0 then first :: rest else rest
    let childEnv := (env.entries ++ extraEnv).foldl (fun m e => m.insert e.1 e.2) .empty
    let currentDir ← childDir host (svc.val .workingDirectory)
    let stdin ← openStreamStdio host (svc.val .standardInput)
    let stdout ← openStreamStdio host (svc.val .standardOutput)
    let stderr ← openStreamStdio host (svc.val .standardError)
    .ok { program, args := argvRest, env := childEnv, currentDir, stdin, stdout, stderr
          preExec := {
            umask := svc.val .umask
            dropsPrivileges := !cmd.flags.fullPrivs
            user := svc.val .user
            group := svc.val .group } }

/-! ## The argument vector -/

section Argv

variable {host : Host} {cmd : ExecCommand} {svc : serviceShape.Rec} {env : Vars}
  {extraEnv : List (Str × Str)} {c : Command}

/-- The program and the arguments of a command that was built. -/
theorem buildCommand_words (h : buildCommand host cmd svc env extraEnv = .ok c) :
    ∃ first rest, substituteArgv cmd env = first :: rest ∧
      c.program = (if cmd.flags.setArgv0 then cmd.program else first) ∧
      c.args = if cmd.flags.setArgv0 then first :: rest else rest := by
  unfold buildCommand at h
  cases hargv : substituteArgv cmd env with
  | nil =>
    rw [hargv] at h
    exact absurd h (by simp)
  | cons first rest =>
    rw [hargv] at h
    obtain ⟨dir, -, h⟩ := bind_ok.mp h
    obtain ⟨stdin, -, h⟩ := bind_ok.mp h
    obtain ⟨stdout, -, h⟩ := bind_ok.mp h
    obtain ⟨stderr, -, h⟩ := bind_ok.mp h
    obtain rfl := Except.ok.inj h
    exact ⟨first, rest, rfl, rfl, rfl⟩

/-- The child sees the words that were written, of the program that was written. -/
structure Faithful (cmd : ExecCommand) (env : Vars) (c : Command) : Prop where
  argv : c.argv = substituteArgv cmd env
  program : cmd.flags.setArgv0 = true → c.program = cmd.program

/-- Without `@` the words are those of the line, -/
theorem argv_of_plain (h : buildCommand host cmd svc env extraEnv = .ok c)
    (hflag : cmd.flags.setArgv0 = false) : c.argv = substituteArgv cmd env := by
  obtain ⟨first, rest, hargv, hprogram, hargs⟩ := buildCommand_words h
  unfold Command.argv
  rw [hprogram, hargs, hflag, hargv]
  rfl

/-- with `@` there is one more in front of them. -/
theorem argv_of_setArgv0 (h : buildCommand host cmd svc env extraEnv = .ok c)
    (hflag : cmd.flags.setArgv0 = true) : c.argv = cmd.program :: substituteArgv cmd env := by
  obtain ⟨first, rest, hargv, hprogram, hargs⟩ := buildCommand_words h
  unfold Command.argv
  rw [hprogram, hargs, hflag, hargv]
  rfl

end Argv

theorem parse_flags {raw : Str} {cmd : ExecCommand} (h : ExecCommand.parse raw = .ok cmd) :
    cmd.flags = (stripFlags (trim raw)).1 := by
  unfold ExecCommand.parse at h
  simp only at h
  split at h
  next => exact absurd h (by simp)
  next =>
    split at h
    next => exact absurd h (by simp)
    next => exact absurd h (by simp)
    next =>
      split at h
      next =>
        split at h
        next => exact absurd h (by simp)
        next =>
          obtain rfl := Except.ok.inj h
          rfl
      next =>
        obtain rfl := Except.ok.inj h
        rfl

/-- **When a child sees its command line**: exactly if the line has no `@` in front. -/
theorem faithful_iff {raw : Str} {cmd : ExecCommand} (hparse : ExecCommand.parse raw = .ok cmd)
    {host : Host} {svc : serviceShape.Rec} {env : Vars} {extraEnv : List (Str × Str)} {c : Command}
    (h : buildCommand host cmd svc env extraEnv = .ok c) :
    Faithful cmd env c ↔ (stripFlags (trim raw)).1.setArgv0 = false := by
  rw [← parse_flags hparse]
  constructor
  · intro hf
    rw [Bool.eq_false_iff]
    intro hflag
    have hlen := congrArg List.length ((argv_of_setArgv0 h hflag).symm.trans hf.argv)
    rw [List.length_cons] at hlen
    omega
  · intro hflag
    refine ⟨argv_of_plain h hflag, ?_⟩
    intro hset
    rw [hflag] at hset
    exact absurd hset (by simp)

/-- A machine where every file can be opened. -/
def openHost : Host := ⟨none, fun _ _ => true⟩

/-- A service with no directive. -/
def bareService : serviceShape.Rec := ⟨ServiceField.initial, fun _ => []⟩

/-- `:/bin/echo $X` is run as it is written. -/
theorem faithful_iff_echo : Faithful ⟨":/bin/echo $X".toList, ["/bin/echo".toList, "$X".toList],
      "/bin/echo".toList, { noEnvSubst := true }⟩ .empty
      ⟨"/bin/echo".toList, ["$X".toList], .empty, none, .inherit, .inherit, .inherit,
        ⟨none, true, none, none⟩⟩ ↔
    (stripFlags (trim ":/bin/echo $X".toList)).1.setArgv0 = false := by
  have hparse : ExecCommand.parse ":/bin/echo $X".toList =
      .ok ⟨":/bin/echo $X".toList, ["/bin/echo".toList, "$X".toList], "/bin/echo".toList,
        { noEnvSubst := true }⟩ := by decide +kernel
  have hbuild : buildCommand openHost ⟨":/bin/echo $X".toList,
      ["/bin/echo".toList, "$X".toList], "/bin/echo".toList, { noEnvSubst := true }⟩
      bareService .empty [] = .ok ⟨"/bin/echo".toList, ["$X".toList], .empty, none, .inherit,
        .inherit, .inherit, ⟨none, true, none, none⟩⟩ := rfl
  exact faithful_iff hparse hbuild

/-- `@:/usr/bin/sh login -l` passes `login` to `sh` as an argument. -/
theorem argv0_not_set : ¬ ∀ (raw : Str) (cmd : ExecCommand) (host : Host) (svc : serviceShape.Rec)
    (env : Vars) (extraEnv : List (Str × Str)) (c : Command), ExecCommand.parse raw = .ok cmd →
    buildCommand host cmd svc env extraEnv = .ok c → Faithful cmd env c := by
  intro h
  have hparse : ExecCommand.parse "@:/usr/bin/sh login -l".toList =
      .ok ⟨"@:/usr/bin/sh login -l".toList, ["login".toList, "-l".toList], "/usr/bin/sh".toList,
        { noEnvSubst := true, setArgv0 := true }⟩ := by decide +kernel
  have hbuild : buildCommand openHost ⟨"@:/usr/bin/sh login -l".toList,
      ["login".toList, "-l".toList], "/usr/bin/sh".toList,
      { noEnvSubst := true, setArgv0 := true }⟩ bareService .empty [] =
      .ok ⟨"/usr/bin/sh".toList, ["login".toList, "-l".toList], .empty, none, .inherit,
        .inherit, .inherit, ⟨none, true, none, none⟩⟩ := rfl
  exact absurd (h _ _ _ _ _ _ _ hparse hbuild).argv (by decide)

end Systeml.Runtime
