import Systeml.Lib.FileSystem
import Systeml.Unit.Loader
import Systeml.Unit.Spec

/-!
# `[Install]` links

`enable` and `disable`, `mask` and `unmask`, and `is-enabled` are operations on the
configuration directory. `enable` works through a list of links (`requests`), each made if
nothing stands at its path; `disable` finds the links again by their names.
-/

namespace Systeml.Unit

/-- Nothing in it drives `enable` or `disable`. -/
def Install.isEmpty (i : Install) : Bool :=
  i.wantedBy.isEmpty && i.requiredBy.isEmpty && i.upheldBy.isEmpty && i.also.isEmpty &&
    i.aliases.isEmpty && i.defaultInstance.isNone

end Systeml.Unit

namespace Systeml.Runtime

open Systeml.Lib Systeml.Unit

/-! ## Directories -/

/-- The environment, as far as directories depend on it. -/
structure Env where
  xdgConfigHome : Option Str
  xdgRuntimeDir : Option Str
  home : Option Str

namespace Env

variable (e : Env)

/-- `xdg_config_home`. -/
def configHome : Option Str :=
  match e.xdgConfigHome with
  | some c => some c
  | none => e.home.map fun h => joinPath h ".config".toList

/-- The directories below the runtime directory. -/
def below (names : List String) : List Str :=
  match e.xdgRuntimeDir with
  | some rt => names.map fun name => joinPath rt name.toList
  | none => []

/-- `user_search_paths`: the search paths in priority order. -/
def userSearchPaths : List Str :=
  e.below ["systeml/user.control", "systemd/user.control", "systemd/transient",
    "systemd/generator.early"] ++
  (e.configHome.map fun c => joinPath c "systemd/user".toList).toList ++
  e.below ["systemd/generator"] ++ ["/etc/systemd/user".toList] ++
  e.below ["systemd/user", "systemd/generator.late"] ++
  ["/usr/local/lib/systemd/user".toList, "/usr/local/share/systemd/user".toList,
    "/usr/lib/systemd/user".toList, "/usr/share/systemd/user".toList]

/-- `config_dir`: where the links of `enable` go. -/
def configDir : Option Str :=
  match e.xdgConfigHome with
  | some x => some (joinPath x "systemd/user".toList)
  | none => e.home.map fun h => joinPath h ".config/systemd/user".toList

/-- The directory that an operation changes. -/
def baseDir (runtime : Bool) : Option Str :=
  if runtime then
    match e.xdgRuntimeDir with
    | some rt => some (joinPath rt "systemd/user".toList)
    | none => e.configDir
  else e.configDir

end Env

/-! ## Results -/

/-- One change on disk. -/
structure UnitFileChange where
  changeType : String
  target : Str
  source : Str
  deriving DecidableEq, Repr

/-- The changes of one operation. -/
structure EnableChanges where
  carriesInstallInfo : Bool := false
  changes : List UnitFileChange := []
  deriving DecidableEq, Repr

/-- Why an operation fails. -/
inductive InstallError where
  /-- No `XDG_CONFIG_HOME` or `HOME` for symlinks. -/
  | noConfigDir
  | mkdir (dir : Str)
  | symlink (link target : Str)
  | unlink (link : Str)
  deriving DecidableEq, Repr

/-! ## Links -/

/-- `link.exists() || link.is_symlink()`. -/
def occupied (fs : FileSystem) (link : Str) : Bool := fs.pathExists link || fs.isSymlink link

/-- `remove_file`, whatever comes of it. -/
def tryRemove (fs : FileSystem) (p : Str) : FileSystem := (fs.removeFile p).getD fs

/-- Make a symbolic link, and report it. -/
def report (fs : FileSystem) (link target : Str) :
    FileSystem × Except InstallError (List UnitFileChange) :=
  match fs.symlink target link with
  | some fs => (fs, .ok [⟨"symlink", link, target⟩])
  | none => (fs, .error (.symlink link target))

/-- What `link_one` and `mask` do in a directory that is there. -/
def putLink (fs : FileSystem) (link target : Str) (force : Bool) :
    FileSystem × Except InstallError (List UnitFileChange) :=
  if occupied fs link then
    if !force then (fs, .ok []) else report (tryRemove fs link) link target
  else report fs link target

/-- `link_one`. -/
def linkOne (fs : FileSystem) (dir linkName target : Str) (force : Bool) :
    FileSystem × Except InstallError (List UnitFileChange) :=
  match fs.createDirAll dir with
  | (fs, none) => (fs, .error (.mkdir dir))
  | (fs, some _) => putLink fs (joinPath dir linkName) target force

/-- `locate_fragment`. -/
def locateFragment (e : Env) (fs : FileSystem) (n : UnitName) : Option Str :=
  (e.userSearchPaths.map fun base => joinPath base n.filename).find? fs.isFile

/-! ## Enable and disable -/

/-- The directory of a target's links. -/
def targetDir (base : Str) (suffix : String) (target : UnitName) : Str :=
  joinPath base (target.filename ++ suffix.toList)

/-- The directory and the name of each link that `enable` asks for. -/
def requests (base : Str) (n : UnitName) (i : Install) : List (Str × Str) :=
  (i.wantedBy.map fun t => (targetDir base ".wants" t, n.filename)) ++
  (i.requiredBy.map fun t => (targetDir base ".requires" t, n.filename)) ++
  (i.upheldBy.map fun t => (targetDir base ".upholds" t, n.filename)) ++
  i.aliases.map fun a => (base, a.filename)

/-- The loops of `enable`. -/
def linkAll (source : Str) (force : Bool) : FileSystem → List (Str × Str) →
    FileSystem × Except InstallError (List UnitFileChange)
  | fs, [] => (fs, .ok [])
  | fs, r :: rs =>
    match linkOne fs r.1 r.2 source force with
    | (fs, .error e) => (fs, .error e)
    | (fs, .ok made) =>
      match linkAll source force fs rs with
      | (fs, .error e) => (fs, .error e)
      | (fs, .ok more) => (fs, .ok (made ++ more))

/-- `enable`. -/
def enable (e : Env) (fs : FileSystem) (n : UnitName) (i : Install) (runtime force : Bool) :
    FileSystem × Except InstallError EnableChanges :=
  if i.isEmpty then (fs, .ok {})
  else
    match e.baseDir runtime with
    | none => (fs, .error .noConfigDir)
    | some base =>
      let source := (locateFragment e fs n).getD n.filename
      match linkAll source force fs (requests base n i) with
      | (fs, .error err) => (fs, .error err)
      | (fs, .ok changes) => (fs, .ok ⟨true, changes⟩)

/-- A directory that holds links of targets. -/
def isInstallDir (dirName : Str) : Bool :=
  (stripSuffix dirName ".wants".toList).isSome ||
    (stripSuffix dirName ".requires".toList).isSome ||
    (stripSuffix dirName ".upholds".toList).isSome

/-- One entry of the directory that `disable` goes through. -/
def disableEntry (base want : Str) (fs : FileSystem) (entry : Str × Node) :
    FileSystem × List UnitFileChange :=
  let path := joinPath base entry.1
  match entry.2 with
  | .dir =>
    let link := joinPath path want
    if isInstallDir entry.1 && occupied fs link then
      (tryRemove fs link, [⟨"unlink", link, []⟩])
    else (fs, [])
  | .symlink _ =>
    -- could be an alias symlink at the top level
    if entry.1 = want then (tryRemove fs path, [⟨"unlink", path, []⟩]) else (fs, [])
  | .file _ | .device => (fs, [])

/-- The loop of `disable`. -/
def disableAll (base want : Str) : FileSystem → List (Str × Node) →
    FileSystem × List UnitFileChange
  | fs, [] => (fs, [])
  | fs, entry :: entries =>
    let (fs, made) := disableEntry base want fs entry
    let (fs, more) := disableAll base want fs entries
    (fs, made ++ more)

/-- `disable`. -/
def disable (e : Env) (fs : FileSystem) (n : UnitName) (runtime : Bool) :
    FileSystem × Except InstallError EnableChanges :=
  match e.baseDir runtime with
  | none => (fs, .error .noConfigDir)
  | some base =>
    match fs.readDir base with
    | none => (fs, .ok {})
    | some entries =>
      let (fs, changes) := disableAll base n.filename fs entries
      (fs, .ok ⟨false, changes⟩)

/-! ## Mask and unmask -/

/-- What a mask points to. -/
def devNull : Str := "/dev/null".toList

/-- `t == Path::new("/dev/null")`: paths are compared by their components. -/
def isDevNull (t : Str) : Bool := isAbsolute t && components t == components devNull

/-- `mask`. -/
def mask (e : Env) (fs : FileSystem) (n : UnitName) (runtime force : Bool) :
    FileSystem × Except InstallError EnableChanges :=
  match e.baseDir runtime with
  | none => (fs, .error .noConfigDir)
  | some base =>
    match fs.createDirAll base with
    | (fs, none) => (fs, .error (.mkdir base))
    | (fs, some _) =>
      match putLink fs (joinPath base n.filename) devNull force with
      | (fs, .error err) => (fs, .error err)
      | (fs, .ok changes) => (fs, .ok ⟨false, changes⟩)

/-- `unmask`. -/
def unmask (e : Env) (fs : FileSystem) (n : UnitName) (runtime : Bool) :
    FileSystem × Except InstallError EnableChanges :=
  match e.baseDir runtime with
  | none => (fs, .error .noConfigDir)
  | some base =>
    let link := joinPath base n.filename
    match fs.readLink link with
    | none => (fs, .ok {})
    | some t =>
      if isDevNull t then
        match fs.removeFile link with
        | some fs => (fs, .ok ⟨false, [⟨"unlink", link, devNull⟩]⟩)
        | none => (fs, .error (.unlink link))
      else (fs, .ok {})

/-! ## State -/

/-- Whether a directory has an entry for the unit in a directory of links. -/
def hasLinkIn (fs : FileSystem) (want base : Str) : Bool :=
  match fs.readDir base with
  | none => false
  | some entries => entries.any fun entry =>
      isInstallDir entry.1 && occupied fs (joinPath (joinPath base entry.1) want)

/-- `unit_file_state`. -/
def unitFileState (e : Env) (fs : FileSystem) (n : UnitName) (install : Option Install) : String :=
  let linked := e.configDir.bind fun cfg => fs.readLink (joinPath cfg n.filename)
  match linked with
  | some t => if isDevNull t then "masked" else "linked"
  | none =>
    if e.userSearchPaths.any (hasLinkIn fs n.filename) then "enabled"
    else
      match locateFragment e fs n, install with
      | none, _ => "not-found"
      | some _, some i => if i.isEmpty then "static" else "disabled"
      | some _, none => "static"

end Systeml.Runtime
