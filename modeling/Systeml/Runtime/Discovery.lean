import Systeml.Lib.FirstKept
import Systeml.Runtime.Mask

/-!
# What the search paths hold

`daemon_reload` and `list_unit_files` scan every directory of the search path and keep the
first file of each name; `locate_fragment` and the loader look for the file of one name.
Both find the same (`scan_get?`): a scan has the units whose name can be read back from
its filename, each with the path that a lookup gives.
-/

namespace Systeml.Runtime

open Systeml.Lib Systeml.Unit

/-! ## The scan -/

/-- What one entry of a directory adds: a regular file named as a unit. -/
def noteEntry (fs : FileSystem) (base : Str) (seen : IndexMap UnitName Str)
    (entry : Str × Node) : IndexMap UnitName Str :=
  let p := joinPath base entry.1
  if !fs.isFile p then seen
  else
    match fromPath p with
    | .error _ => seen
    | .ok name => seen.orInsert name p

/-- One directory, if it can be read. -/
def scanDir (fs : FileSystem) (seen : IndexMap UnitName Str) (base : Str) :
    IndexMap UnitName Str :=
  match fs.readDir base with
  | none => seen
  | some entries => entries.foldl (noteEntry fs base) seen

/-- The scan of `daemon_reload` and of `list_unit_files`. -/
def scan (e : Env) (fs : FileSystem) : IndexMap UnitName Str :=
  e.userSearchPaths.foldl (scanDir fs) .empty

/-- `list_unit_files`: name, path and state of each. -/
def listUnitFiles (e : Env) (fs : FileSystem) (install : UnitName → Option Install) :
    List (UnitName × Str × String) :=
  (scan e fs).entries.map fun x => (x.1, x.2, unitFileState e fs x.1 (install x.1))

/-! ## One directory -/

variable {e : Env} {fs : FileSystem} {base : Str} {n : UnitName}

/-- The unit files that an entry stands for. -/
def unitFile (fs : FileSystem) (base : Str) (entry : Str × Node) : Option (UnitName × Str) :=
  let p := joinPath base entry.1
  if fs.isFile p then
    match fromPath p with
    | .error _ => none
    | .ok name => some (name, p)
  else none

/-- The unit files in a directory. -/
def unitFiles (fs : FileSystem) (base : Str) : List (UnitName × Str) :=
  ((fs.readDir base).getD []).filterMap (unitFile fs base)

theorem noteEntry_eq (seen : IndexMap UnitName Str) (entry : Str × Node) :
    noteEntry fs base seen entry =
      (unitFile fs base entry).toList.foldl (fun m x => m.orInsert x.1 x.2) seen := by
  simp only [noteEntry, unitFile]
  cases fs.isFile (joinPath base entry.1) with
  | false => rfl
  | true =>
    cases fromPath (joinPath base entry.1) with
    | error err => rfl
    | ok name => rfl

theorem foldl_noteEntry : ∀ (entries : List (Str × Node)) (seen : IndexMap UnitName Str),
    entries.foldl (noteEntry fs base) seen =
      (entries.filterMap (unitFile fs base)).foldl (fun m x => m.orInsert x.1 x.2) seen
  | [], _ => rfl
  | entry :: entries, seen => by
    rw [List.foldl_cons, foldl_noteEntry entries, noteEntry_eq, List.filterMap_cons]
    cases unitFile fs base entry <;> rfl

theorem scanDir_eq (seen : IndexMap UnitName Str) (base : Str) :
    scanDir fs seen base = (unitFiles fs base).foldl (fun m x => m.orInsert x.1 x.2) seen := by
  unfold scanDir unitFiles
  cases fs.readDir base with
  | none => rfl
  | some entries => exact foldl_noteEntry entries seen

theorem scan_eq (e : Env) (fs : FileSystem) :
    scan e fs = (e.userSearchPaths.flatMap (unitFiles fs)).foldl
      (fun m x => m.orInsert x.1 x.2) .empty := by
  unfold scan
  rw [List.foldl_flatMap]
  congr 1
  funext seen base
  exact scanDir_eq seen base

/-- The name can be read back from its filename. -/
def ReadsBack (n : UnitName) : Prop := fromStr n.filename = .ok n ∧ '/' ∉ n.filename

theorem fromPath_own (h : ReadsBack n) : fromPath (joinPath base n.filename) = .ok n := by
  unfold fromPath
  rw [fileName_own h.2]
  simp only [h.1]

/-- A file in a directory is a unit's exactly under the name of the unit. -/
theorem unitFile_eq_some {entry : Str × Node} {p : Str} (hplain : PlainName entry.1) :
    unitFile fs base entry = some (n, p) ↔
      ReadsBack n ∧ entry.1 = n.filename ∧ p = joinPath base n.filename ∧ fs.isFile p = true := by
  have hname : fileName (joinPath base entry.1) = some entry.1 := by
    rw [Unit.fileName_join (by simp [components_of_plain hplain])]
    unfold fileName
    rw [components_of_plain hplain]
    exact if_neg hplain.notDotDot
  simp only [unitFile]
  constructor
  · intro h
    split at h
    next hfile =>
      split at h
      next => exact absurd h (by simp)
      next name hpath =>
        obtain ⟨rfl, rfl⟩ := Prod.mk.inj (Option.some.inj h)
        obtain ⟨f, hf, hstr⟩ := fromPath_ok hpath
        obtain rfl := Option.some.inj (hname.symm.trans hf)
        have hfilename := filename_of_fromStr hstr
        refine ⟨⟨hfilename.symm ▸ hstr, hfilename.symm ▸ hplain.noSlash⟩, hfilename.symm, ?_, hfile⟩
        rw [hfilename]
    next => exact absurd h (by simp)
  · rintro ⟨hread, hentry, rfl, hfile⟩
    rw [hentry, if_pos hfile, fromPath_own hread]

/-- A file below a directory is an entry of it. -/
theorem mem_readDir_of_isFile {f : Str} (hplain : PlainName f)
    (hfile : fs.isFile (joinPath base f) = true) :
    ∃ entries x, fs.readDir base = some entries ∧ (f, x) ∈ entries := by
  have hexists : fs.pathExists (joinPath base f) = true := by
    unfold FileSystem.isFile at hfile
    unfold FileSystem.pathExists
    cases hstat : fs.stat (joinPath base f) with
    | none =>
      rw [hstat] at hfile
      exact absurd hfile (by simp)
    | some x => rfl
  obtain ⟨d, x, hd, hx⟩ := (FileSystem.exists_or_symlink_join hplain).mp
    (by rw [hexists, Bool.true_or])
  have hread : ∃ entries, fs.readDir base = some entries := by
    unfold FileSystem.readDir
    rw [hd]
    simp only [FileSystem.parent_dir hx, if_true]
    exact ⟨_, rfl⟩
  obtain ⟨entries, hentries⟩ := hread
  obtain ⟨d', hd', -, hmem⟩ := FileSystem.readDir_spec hentries
  obtain rfl := Option.some.inj (hd.symm.trans hd')
  exact ⟨entries, x, hentries, (hmem f x).mpr hx⟩

/-- What a directory has for a name. -/
theorem first_unitFiles (fs : FileSystem) (base : Str) (n : UnitName) (p : Str) :
    IndexMap.first (unitFiles fs base) n = some p ↔
      ReadsBack n ∧ p = joinPath base n.filename ∧ fs.isFile p = true := by
  have hplain : ∀ entry ∈ (fs.readDir base).getD [], PlainName entry.1 := by
    intro entry hentry
    cases hread : fs.readDir base with
    | none =>
      rw [hread] at hentry
      exact absurd hentry (by simp)
    | some entries =>
      rw [hread] at hentry
      obtain ⟨d, -, -, hmem⟩ := FileSystem.readDir_spec hread
      exact FileSystem.plain_name ((hmem entry.1 entry.2).mp hentry)
  have hmem : ∀ q, (n, q) ∈ unitFiles fs base ↔
      ReadsBack n ∧ q = joinPath base n.filename ∧ fs.isFile q = true := by
    intro q
    unfold unitFiles
    rw [List.mem_filterMap]
    constructor
    · rintro ⟨entry, hentry, hq⟩
      obtain ⟨hread, -, hpath, hfile⟩ := (unitFile_eq_some (hplain entry hentry)).mp hq
      exact ⟨hread, hpath, hfile⟩
    · rintro ⟨hread, rfl, hfile⟩
      have hname := plainName_filename hread.2
      obtain ⟨entries, x, hentries, hx⟩ := mem_readDir_of_isFile hname hfile
      refine ⟨(n.filename, x), by rw [hentries]; exact hx, ?_⟩
      exact (unitFile_eq_some hname).mpr ⟨hread, rfl, rfl, hfile⟩
  unfold IndexMap.first
  rw [Option.map_eq_some_iff]
  constructor
  · rintro ⟨⟨m, q⟩, hfind, rfl⟩
    obtain rfl : m = n := by simpa using List.find?_some hfind
    exact (hmem q).mp (List.mem_of_find?_eq_some hfind)
  · intro h
    -- every file of the name has the same path
    have hin := (hmem p).mpr h
    cases hfind : (unitFiles fs base).find? fun x => x.1 = n with
    | none => exact absurd (List.find?_eq_none.mp hfind _ hin) (by simp)
    | some x =>
      obtain ⟨m, q⟩ := x
      obtain rfl : m = n := by simpa using List.find?_some hfind
      have hq := (hmem q).mp (List.mem_of_find?_eq_some hfind)
      exact ⟨(m, q), rfl, hq.2.1.trans h.2.1.symm⟩

/-! ## The whole search path -/

/-- **A scan and a lookup find the same**: the units whose names can be read back, each with
the path that `locate_fragment` gives. -/
theorem scan_get? (e : Env) (fs : FileSystem) (n : UnitName) (p : Str) :
    (scan e fs).get? n = some p ↔ ReadsBack n ∧ locateFragment e fs n = some p := by
  have hlocate : locateFragment e fs n = e.userSearchPaths.findSome? fun base =>
      if fs.isFile (joinPath base n.filename) then some (joinPath base n.filename) else none := by
    unfold locateFragment
    induction e.userSearchPaths with
    | nil => rfl
    | cons base bases ih =>
      rw [List.map_cons, List.findSome?_cons]
      by_cases hfile : fs.isFile (joinPath base n.filename) = true
      · rw [List.find?_cons_of_pos (by simpa using hfile), if_pos hfile]
      · rw [List.find?_cons_of_neg (by simpa using hfile), if_neg hfile, ih]
  rw [scan_eq, IndexMap.get?_foldl_orInsert, IndexMap.get?_empty, Option.none_or,
    IndexMap.first_flatMap, hlocate]
  by_cases hread : ReadsBack n
  · have hsame : (fun base => IndexMap.first (unitFiles fs base) n) = fun base =>
        if fs.isFile (joinPath base n.filename) then some (joinPath base n.filename) else none := by
      funext base
      refine Option.ext fun q => ?_
      rw [first_unitFiles]
      by_cases hfile : fs.isFile (joinPath base n.filename) = true
      · rw [if_pos hfile]
        constructor
        · rintro ⟨-, rfl, -⟩
          rfl
        · rintro h
          obtain rfl := Option.some.inj h
          exact ⟨hread, rfl, hfile⟩
      · rw [if_neg hfile]
        constructor
        · rintro ⟨-, rfl, hq⟩
          exact absurd hq hfile
        · exact fun h => absurd h (by simp)
    rw [hsame]
    exact (and_iff_right hread).symm
  · constructor
    · intro h
      obtain ⟨base, -, hbase⟩ := List.exists_of_findSome?_eq_some h
      exact absurd ((first_unitFiles fs base n p).mp hbase).1 hread
    · exact fun h => absurd h.1 hread

/-- The loader reads such a unit from that path, never from a template. -/
theorem locateMain_of_locateFragment {p : Str} (h : locateFragment e fs n = some p) :
    locateMain (fileTree fs) n e.userSearchPaths = .ok (p, false) := by
  have hfind : (e.userSearchPaths.map fun base => joinPath base n.filename).find?
      (fileTree fs).isFile = some p := h
  unfold locateMain
  rw [hfind]

/-- A unit with a fragment is not reported as missing. -/
theorem unitFileState_of_fragment {p : Str} (h : locateFragment e fs n = some p)
    (install : Option Install) : unitFileState e fs n install ≠ "not-found" := by
  simp only [unitFileState]
  split
  · split <;> simp
  · split
    · simp
    · rw [h]
      cases install with
      | none => simp
      | some i =>
        simp only
        split <;> simp

/-- **`list_unit_files` reports each unit once**, with the path that the loader reads it
from and its state. -/
theorem listUnitFiles_spec (e : Env) (fs : FileSystem) (install : UnitName → Option Install) :
    ((listUnitFiles e fs install).map Prod.fst).Nodup ∧
      (∀ n p s, (n, p, s) ∈ listUnitFiles e fs install ↔ ReadsBack n ∧
        locateFragment e fs n = some p ∧ s = unitFileState e fs n (install n)) ∧
      ∀ n p s, (n, p, s) ∈ listUnitFiles e fs install →
        locateMain (fileTree fs) n e.userSearchPaths = .ok (p, false) ∧ s ≠ "not-found" := by
  have hmem : ∀ n p s, (n, p, s) ∈ listUnitFiles e fs install ↔ ReadsBack n ∧
      locateFragment e fs n = some p ∧ s = unitFileState e fs n (install n) := by
    intro n p s
    unfold listUnitFiles
    rw [List.mem_map]
    constructor
    · rintro ⟨⟨m, q⟩, hmq, he⟩
      obtain ⟨hread, hlocate⟩ := (scan_get? e fs m q).mp (IndexMap.mem_entries.mp hmq)
      cases he
      exact ⟨hread, hlocate, rfl⟩
    · rintro ⟨hread, hlocate, rfl⟩
      exact ⟨(n, p), IndexMap.mem_entries.mpr ((scan_get? e fs n p).mpr ⟨hread, hlocate⟩), rfl⟩
  refine ⟨?_, hmem, ?_⟩
  · unfold listUnitFiles
    rw [List.map_map]
    exact (scan e fs).nodup
  · intro n p s h
    obtain ⟨-, hlocate, rfl⟩ := (hmem n p s).mp h
    exact ⟨locateMain_of_locateFragment hlocate, unitFileState_of_fragment hlocate _⟩

end Systeml.Runtime
