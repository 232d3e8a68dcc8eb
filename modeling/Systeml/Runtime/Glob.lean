import Systeml.Lib.FileSystem
import Systeml.Unit.Loader

/-!
# `PathExistsGlob=`

`glob_any_exists` cuts a pattern at its first star. What is before the star may itself be a
directory; then the names in there are looked at, and not those beside it. Otherwise its
last component is what the names in its parent begin with. That a name begins with one text
and ends with another does not say that both fit into it.
-/

namespace Systeml.Runtime

open Systeml.Lib Systeml.Unit

/-! ## Paths -/

/-- The components of a path below the root: a `.` counts where the path begins with it. -/
def pathParts (p : Str) : List Str :=
  match splitOn '/' p with
  | [] => []
  | first :: rest => (if first = [] then [] else [first]) ++
      rest.filter fun c => c != [] && c != ['.']

/-- `Path::parent`. -/
def parentPath (p : Str) : Option Str :=
  if pathParts p = [] then none
  else some ((if isAbsolute p then ['/'] else []) ++ ['/'].intercalate (pathParts p).dropLast)

/-- `Path::is_dir`; the empty path leads nowhere. -/
def isDir (fs : FileSystem) (p : Str) : Bool := p != [] && fs.stat p == some .dir

/-- The names that `read_dir` finds. -/
def entryNames (fs : FileSystem) (p : Str) : Option (List Str) :=
  if p = [] then none else (fs.readDir p).map fun entries => entries.map Prod.fst

/-! ## The glob -/

/-- The directory that is looked at, and what its names must begin with. -/
def globBase (fs : FileSystem) (pre : Str) : Str × Str :=
  if isDir fs pre then (pre, [])
  else match parentPath pre with
    | some parent => (parent, (fileName pre).getD [])
    | none => (['.'], [])

/-- Whether a directory has a name that begins and ends in a way. -/
def anyName (fs : FileSystem) (dir head suffix : Str) : Bool :=
  match entryNames fs dir with
  | none => false
  | some names => names.any fun name => head.isPrefixOf name && suffix.isSuffixOf name

/-- `glob_any_exists`. -/
def globAnyExists (fs : FileSystem) (pattern : Str) : Bool :=
  match splitOnce '*' pattern with
  | some (pre, suffix) => anyName fs (globBase fs pre).1 (globBase fs pre).2 suffix
  | none => pattern != [] && fs.pathExists pattern

/-- A directory has a name. -/
def HasName (fs : FileSystem) (dir name : Str) : Prop :=
  ∃ names, entryNames fs dir = some names ∧ name ∈ names

/-- A directory has a name that is `pre`, then any text, then `suffix`. -/
def Matches (fs : FileSystem) (dir pre suffix : Str) : Prop :=
  ∃ mid, HasName fs dir (pre ++ mid ++ suffix)

theorem anyName_iff {fs : FileSystem} {dir head suffix : Str} : anyName fs dir head suffix = true ↔
    ∃ name, HasName fs dir name ∧ head <+: name ∧ suffix <:+ name := by
  unfold anyName HasName
  cases entryNames fs dir with
  | none => simp
  | some names => simp

/-- With nothing to begin with, a name that ends right matches. -/
theorem anyName_nil {fs : FileSystem} {dir suffix : Str} :
    anyName fs dir [] suffix = true ↔ Matches fs dir [] suffix := by
  rw [anyName_iff]
  constructor
  · intro h
    obtain ⟨name, hname, -, mid, rfl⟩ := h
    exact ⟨mid, hname⟩
  · intro h
    obtain ⟨mid, hname⟩ := h
    exact ⟨mid ++ suffix, hname, List.nil_prefix, List.suffix_append _ _⟩

/-- What begins and ends right and is long enough is a match. -/
theorem exists_mid {pre suffix name : Str} (hpre : pre <+: name) (hsuffix : suffix <:+ name)
    (hlen : pre.length + suffix.length ≤ name.length) : ∃ mid, name = pre ++ mid ++ suffix := by
  obtain ⟨t, rfl⟩ := hpre
  have ht : suffix <:+ t := by
    refine List.suffix_of_suffix_length_le hsuffix (List.suffix_append pre t) ?_
    rw [List.length_append] at hlen
    omega
  obtain ⟨mid, rfl⟩ := ht
  exact ⟨mid, (List.append_assoc ..).symm⟩

/-! ## The directory of a pattern -/

section Directory

variable {fs : FileSystem} {dir name : Str}

theorem pathParts_join (hname : '/' ∉ name) : pathParts (dir ++ '/' :: name) =
    pathParts dir ++ [name].filter fun c => c != [] && c != ['.'] := by
  unfold pathParts
  rw [splitOn_append_sep, splitOn_of_not_mem hname]
  cases hs : splitOn '/' dir with
  | nil => exact absurd hs (splitOn_ne_nil dir)
  | cons first rest =>
    rw [List.cons_append]
    simp only
    rw [List.filter_append, List.append_assoc]

theorem components_pathParts (p : Str) :
    ((pathParts p).filter fun c => c != [] && c != ['.']) = components p := by
  unfold pathParts components
  cases splitOn '/' p with
  | nil => rfl
  | cons first rest =>
    simp only
    by_cases hfirst : first = []
    · rw [if_pos hfirst, hfirst]
      simp
    · rw [if_neg hfirst, List.filter_append, List.filter_filter]
      by_cases hdot : first = ['.'] <;> simp [hfirst, hdot]

theorem not_mem_pathParts {p c : Str} (h : c ∈ pathParts p) : '/' ∉ c := by
  unfold pathParts at h
  cases hs : splitOn '/' p with
  | nil => exact absurd hs (splitOn_ne_nil p)
  | cons first rest =>
    have hall : ∀ x ∈ first :: rest, '/' ∉ x := by
      intro x hx
      rw [← hs] at hx
      exact notMem_of_mem_splitOn hx
    rw [hs] at h
    simp only at h
    rcases List.mem_append.mp h with h | h
    · split at h
      next => exact absurd h List.not_mem_nil
      next => exact hall c (List.mem_singleton.mp h ▸ List.mem_cons_self)
    · exact hall c (List.mem_cons_of_mem _ (List.mem_of_mem_filter h))

/-- A relative path begins with a name. -/
theorem pathParts_relative {p : Str} (hp : p ≠ []) (hrel : isAbsolute p = false) :
    ∃ c t rest, c ≠ '/' ∧ pathParts p = (c :: t) :: rest := by
  cases p with
  | nil => exact absurd rfl hp
  | cons c p =>
    have hc : c ≠ '/' := by
      rintro rfl
      exact absurd hrel (by simp [isAbsolute])
    unfold pathParts
    rw [splitOn, if_neg hc]
    cases splitOn '/' p with
    | nil => exact ⟨c, [], _, hc, rfl⟩
    | cons y ys => exact ⟨c, y, _, hc, rfl⟩

theorem components_intercalate {parts : List Str} (h : ∀ c ∈ parts, '/' ∉ c) :
    components (['/'].intercalate parts) = parts.filter fun c => c != [] && c != ['.'] := by
  cases parts with
  | nil => rfl
  | cons c parts =>
    unfold components
    rw [splitOn_intercalate (List.cons_ne_nil c parts) h]

/-- Paths that are spelt differently. -/
theorem entryNames_congr {p q : Str} (hp : p ≠ []) (hq : q ≠ [])
    (hroot : isAbsolute p = isAbsolute q) (hparts : components p = components q) :
    entryNames fs p = entryNames fs q := by
  unfold entryNames FileSystem.readDir FileSystem.canonicalize FileSystem.startOf
  rw [if_neg hp, if_neg hq, hroot, hparts]

/-- The parent of a path is the directory that it was joined to. -/
theorem entryNames_parent (hname : '/' ∉ name) (hne : name ≠ []) (hdot : name ≠ ['.']) :
    ∃ parent, parentPath (dir ++ '/' :: name) = some parent ∧
      entryNames fs parent = entryNames fs (dir ++ ['/']) := by
  have hparts : pathParts (dir ++ '/' :: name) = pathParts dir ++ [name] := by
    rw [pathParts_join hname, List.filter_cons_of_pos (by simp [hne, hdot]), List.filter_nil]
  have hdir : components (dir ++ ['/']) = components dir := by
    rw [components_append_sep]
    exact List.append_nil _
  have hparent : components (['/'].intercalate (pathParts dir)) = components dir := by
    rw [components_intercalate fun c hc => not_mem_pathParts hc, components_pathParts]
  unfold parentPath
  rw [if_neg (by simp [hparts]), hparts, List.dropLast_concat]
  refine ⟨_, rfl, ?_⟩
  cases habs : isAbsolute (dir ++ '/' :: name) with
  | true =>
    have hroot : isAbsolute (dir ++ ['/']) = true := by
      cases dir with
      | nil => rfl
      | cons c dir => exact habs
    refine entryNames_congr (by simp) (by simp) hroot.symm ?_
    rw [if_pos rfl, hdir]
    exact (components_append_sep [] _).trans hparent
  | false =>
    have hne' : dir ≠ [] := by
      rintro rfl
      exact absurd habs (by simp [isAbsolute])
    have hrel : isAbsolute dir = false := by
      cases dir with
      | nil => exact absurd rfl hne'
      | cons c dir => exact habs
    obtain ⟨c, t, rest, hc, hfirst⟩ := pathParts_relative hne' hrel
    have htext : ∃ u, ['/'].intercalate (pathParts dir) = c :: u := by
      rw [hfirst]
      cases rest with
      | nil => exact ⟨t, by simp⟩
      | cons w rest => exact ⟨_, List.intercalate_cons_cons ..⟩
    obtain ⟨u, hu⟩ := htext
    have hroot : isAbsolute (dir ++ ['/']) = false := by
      cases dir with
      | nil => exact absurd rfl hne'
      | cons c dir => exact habs
    simp only [Bool.false_eq_true, if_false, List.nil_append]
    refine entryNames_congr (by simp [hu]) (by simp) ?_ ?_
    · rw [hroot, hu]
      simp [isAbsolute, hc]
    · rw [hdir, hparent]

theorem fileName_join (h : PlainName name) : fileName (dir ++ '/' :: name) = some name := by
  have hname : components name = [name] := components_of_plain h
  unfold fileName
  rw [components_append_sep, hname, List.getLast?_concat]
  exact if_neg h.notDotDot

theorem isDir_iff {p : Str} : isDir fs p = true ↔
    p ≠ [] ∧ ∃ d, fs.canonicalize p = some d ∧ fs.node? d = some .dir := by
  unfold isDir FileSystem.stat
  rw [Bool.and_eq_true, bne_iff_ne, beq_iff_eq, Option.bind_eq_some_iff]

theorem canonicalize_below : fs.canonicalize (dir ++ '/' :: name) =
    (fs.canonicalize (dir ++ ['/'])).bind fun d => fs.walk d (components name) := by
  have hroot : isAbsolute (dir ++ '/' :: name) = isAbsolute (dir ++ ['/']) := by
    cases dir <;> rfl
  unfold FileSystem.canonicalize FileSystem.startOf
  rw [hroot, components_append_sep, components_append_sep, FileSystem.walk_append]
  rw [show components [] = [] from rfl, List.append_nil]

/-- What is not a directory has no names. -/
theorem entryNames_eq_none {p : Str} (h : isDir fs p = false) : entryNames fs p = none := by
  unfold entryNames FileSystem.readDir
  split
  next => rfl
  next hp =>
    cases hd : fs.canonicalize p with
    | none => rfl
    | some d =>
      have hdir : fs.node? d ≠ some .dir := by
        intro hdir
        rw [isDir_iff.mpr ⟨hp, d, hd, hdir⟩] at h
        exact absurd h (by simp)
      simp only
      rw [if_neg hdir]
      rfl

/-- A directory stands in a directory. -/
theorem isDir_of_below (h : isDir fs (dir ++ '/' :: name) = true) (hname : '/' ∉ name) :
    isDir fs (dir ++ ['/']) = true := by
  obtain ⟨-, d, hd, hdir⟩ := isDir_iff.mp h
  rw [canonicalize_below] at hd
  obtain ⟨cur, hcur, hwalk⟩ := Option.bind_eq_some_iff.mp hd
  refine isDir_iff.mpr ⟨by simp, cur, hcur, ?_⟩
  unfold components at hwalk
  rw [splitOn_of_not_mem hname] at hwalk
  cases hskip : (name != [] && name != ['.']) with
  | true =>
    rw [List.filter_cons, if_pos hskip, List.filter_nil, FileSystem.walk_singleton] at hwalk
    exact (FileSystem.step_spec hwalk).1
  | false =>
    rw [List.filter_cons, if_neg (by simp [hskip])] at hwalk
    obtain rfl := Option.some.inj hwalk
    exact hdir

/-- What is in a directory and no directory itself has a plain name. -/
theorem plain_of_below (h : isDir fs (dir ++ ['/']) = true)
    (hno : isDir fs (dir ++ '/' :: name) = false) (hname : '/' ∉ name) : PlainName name := by
  obtain ⟨-, d, hd, hdir⟩ := isDir_iff.mp h
  have hnot : ∀ e, fs.walk d (components name) = some e → fs.node? e ≠ some .dir := by
    intro e he hdir
    have hbelow : isDir fs (dir ++ '/' :: name) = true := by
      refine isDir_iff.mpr ⟨by simp, e, ?_, hdir⟩
      rw [canonicalize_below, hd, Option.bind_some, he]
    rw [hno] at hbelow
    exact absurd hbelow (by simp)
  refine ⟨?_, hname, ?_, ?_⟩
  · rintro rfl
    exact hnot d rfl hdir
  · rintro rfl
    exact hnot d rfl hdir
  · rintro rfl
    have hup : fs.walk d (components ['.', '.']) = some d.dropLast := by
      show fs.walk d [['.', '.']] = _
      rw [FileSystem.walk_singleton]
      unfold FileSystem.step
      rw [if_neg (not_not.mpr hdir), if_pos rfl]
    refine hnot _ hup ?_
    -- the parent of a directory is one
    cases d using List.reverseRecOn with
    | nil => exact if_pos rfl
    | append_singleton e c =>
      rw [List.dropLast_concat]
      exact FileSystem.parent_dir hdir

end Directory

/-! ## Patterns with one star -/

section Pattern

variable {fs : FileSystem} {dir pre suffix : Str}

theorem globAnyExists_star (hdir : '*' ∉ dir) (hpre : '*' ∉ pre) :
    globAnyExists fs (dir ++ '/' :: pre ++ '*' :: suffix) =
      anyName fs (globBase fs (dir ++ '/' :: pre)).1 (globBase fs (dir ++ '/' :: pre)).2 suffix := by
  have hcut : splitOnce '*' (dir ++ '/' :: pre ++ '*' :: suffix) =
      some (dir ++ '/' :: pre, suffix) := by
    refine splitOnce_eq_some.mpr ⟨rfl, ?_⟩
    simp [hdir, hpre]
  unfold globAnyExists
  rw [hcut]

theorem globBase_dir (h : isDir fs pre = true) : globBase fs pre = (pre, []) := if_pos h

/-- The names beside a text that is no directory, and begin with its last component. -/
theorem globBase_plain (hno : isDir fs (dir ++ '/' :: pre) = false) (h : PlainName pre) :
    entryNames fs (globBase fs (dir ++ '/' :: pre)).1 = entryNames fs (dir ++ ['/']) ∧
      (globBase fs (dir ++ '/' :: pre)).2 = pre := by
  obtain ⟨parent, hparent, hnames⟩ := entryNames_parent h.noSlash h.nonempty h.notDot
  unfold globBase
  rw [if_neg (by simp [hno]), hparent, fileName_join h]
  exact ⟨hnames, rfl⟩

theorem anyName_congr {p q head : Str} (h : entryNames fs p = entryNames fs q) :
    anyName fs p head suffix = anyName fs q head suffix := by
  unfold anyName
  rw [h]

/-- A text that stands in no directory: a name that is one finds nothing. -/
theorem anyName_missing (hno : isDir fs (dir ++ ['/']) = false) (hpre : '/' ∉ pre)
    (hne : pre ≠ []) (hdot : pre ≠ ['.']) :
    anyName fs (globBase fs (dir ++ '/' :: pre)).1 (globBase fs (dir ++ '/' :: pre)).2 suffix =
      false := by
  have hbase : isDir fs (dir ++ '/' :: pre) = false := by
    cases hb : isDir fs (dir ++ '/' :: pre) with
    | false => rfl
    | true =>
      rw [isDir_of_below hb hpre] at hno
      exact absurd hno (by simp)
  have hup : ∃ parent, parentPath (dir ++ '/' :: pre) = some parent ∧
      entryNames fs parent = entryNames fs (dir ++ ['/']) := entryNames_parent hpre hne hdot
  obtain ⟨parent, hparent, hnames⟩ := hup
  unfold globBase anyName
  rw [if_neg (by simp [hbase]), hparent]
  simp only
  rw [hnames, entryNames_eq_none hno]

/-- A `.` before the star changes nothing where there is no directory. -/
theorem globBase_missing (hno : isDir fs (dir ++ ['/']) = false) (hpre : pre = [] ∨ pre = ['.']) :
    globBase fs (dir ++ '/' :: pre) = globBase fs (dir ++ ['/']) := by
  rcases hpre with rfl | rfl
  · rfl
  have hslash : '/' ∉ ['.'] := by decide
  have hbase : isDir fs (dir ++ '/' :: ['.']) = false := by
    cases hb : isDir fs (dir ++ '/' :: ['.']) with
    | false => rfl
    | true =>
      rw [isDir_of_below hb hslash] at hno
      exact absurd hno (by simp)
  have hparts : pathParts (dir ++ '/' :: ['.']) = pathParts (dir ++ ['/']) := by
    rw [pathParts_join hslash, pathParts_join (List.not_mem_nil)]
    rfl
  have hroot : isAbsolute (dir ++ '/' :: ['.']) = isAbsolute (dir ++ ['/']) := by
    cases dir <;> rfl
  have hparent : parentPath (dir ++ '/' :: ['.']) = parentPath (dir ++ ['/']) := by
    unfold parentPath
    rw [hparts, hroot]
  have hname : fileName (dir ++ '/' :: ['.']) = fileName (dir ++ ['/']) := by
    unfold fileName
    rw [components_append_sep, components_append_sep]
    rfl
  unfold globBase
  rw [if_neg (by simp [hbase]), if_neg (by simp [hno]), hparent, hname]

/-- No name beside a path begins like its own and ends in some way. -/
def NoneBeside (fs : FileSystem) (p suffix : Str) : Prop :=
  ∀ parent name, parentPath p = some parent → HasName fs parent name →
    (fileName p).getD [] <+: name → ¬ suffix <:+ name

/-- A path without a parent is the root, so there is one where there is no directory. -/
theorem isDir_of_parentPath {p : Str} (hp : p ≠ []) (h : parentPath p = none) :
    isDir fs p = true := by
  have hparts : pathParts p = [] := by
    unfold parentPath at h
    split at h
    next hparts => exact hparts
    next => exact absurd h (by simp)
  have habs : isAbsolute p = true := by
    rw [← Bool.not_eq_false]
    intro hrel
    obtain ⟨c, t, rest, -, hfirst⟩ := pathParts_relative hp hrel
    rw [hparts] at hfirst
    exact absurd hfirst (by simp)
  have hcomponents : components p = [] := by
    rw [← components_pathParts, hparts]
    rfl
  refine isDir_iff.mpr ⟨hp, [], ?_, if_pos rfl⟩
  unfold FileSystem.canonicalize FileSystem.startOf
  rw [hcomponents, if_pos habs]
  rfl

theorem anyName_beside {p : Str} (hp : p ≠ []) (hno : isDir fs p = false) :
    anyName fs (globBase fs p).1 (globBase fs p).2 suffix = false ↔ NoneBeside fs p suffix := by
  rw [← Bool.not_eq_true, anyName_iff]
  unfold globBase NoneBeside
  rw [if_neg (by simp [hno])]
  cases hparent : parentPath p with
  | none =>
    rw [isDir_of_parentPath hp hparent] at hno
    exact absurd hno (by simp)
  | some parent =>
    constructor
    · intro h q name hq hname hbegin hend
      obtain rfl := Option.some.inj hq
      exact h ⟨name, hname, hbegin, hend⟩
    · intro h hfound
      obtain ⟨name, hname, hbegin, hend⟩ := hfound
      exact h parent name rfl hname hbegin hend

/-- Where the glob looks at the right names in the right way. -/
structure Probes (fs : FileSystem) (dir pre suffix : Str) : Prop where
  /-- What is before the star is no directory, or holds a match when its parent does. -/
  inside : pre ≠ [] → isDir fs (dir ++ '/' :: pre) = true →
    (Matches fs (dir ++ '/' :: pre) [] suffix ↔ Matches fs (dir ++ ['/']) pre suffix)
  /-- No name is so short that both ends overlap in it, unless another one matches. -/
  overlap : isDir fs (dir ++ ['/']) = true → isDir fs (dir ++ '/' :: pre) = false →
    ∀ name, HasName fs (dir ++ ['/']) name → pre <+: name → suffix <:+ name →
      name.length < pre.length + suffix.length → Matches fs (dir ++ ['/']) pre suffix
  /-- Where there is no directory, nothing beside it has a name like its own. -/
  missing : isDir fs (dir ++ ['/']) = false → pre = [] ∨ pre = ['.'] →
    NoneBeside fs (dir ++ ['/']) suffix

theorem not_matches (hno : isDir fs dir = false) : ¬ Matches fs dir pre suffix := by
  rintro ⟨mid, names, hnames, -⟩
  rw [entryNames_eq_none hno] at hnames
  exact absurd hnames (by simp)

/-- **When the glob means what it says.** -/
theorem globAnyExists_iff (fs : FileSystem) {dir pre : Str} (suffix : Str) (hdir : '*' ∉ dir)
    (hstar : '*' ∉ pre) (hpre : '/' ∉ pre) :
    (globAnyExists fs (dir ++ '/' :: pre ++ '*' :: suffix) = true ↔
      Matches fs (dir ++ ['/']) pre suffix) ↔ Probes fs dir pre suffix := by
  rw [globAnyExists_star hdir hstar]
  cases hbase : isDir fs (dir ++ '/' :: pre) with
  | true =>
    have hd := isDir_of_below hbase hpre
    rw [globBase_dir hbase, anyName_nil]
    constructor
    · intro h
      exact ⟨fun _ _ => h, fun _ hno => absurd hno (by simp [hbase]),
        fun hno => absurd hno (by simp [hd])⟩
    · intro h
      by_cases hne : pre = []
      · subst hne
        exact Iff.rfl
      · exact h.inside hne hbase
  | false =>
    cases hd : isDir fs (dir ++ ['/']) with
    | true =>
      have hplain := plain_of_below hd hbase hpre
      obtain ⟨hnames, hhead⟩ := globBase_plain hbase hplain
      rw [anyName_congr hnames, hhead, anyName_iff]
      constructor
      · intro h
        refine ⟨fun _ hb => absurd hb (by simp [hbase]), ?_, fun hno => absurd hno (by simp [hd])⟩
        intro _ _ name hname hbegin hend _
        exact h.mp ⟨name, hname, hbegin, hend⟩
      · intro h
        constructor
        · intro hfound
          obtain ⟨name, hname, hbegin, hend⟩ := hfound
          rcases Nat.lt_or_ge name.length (pre.length + suffix.length) with hlen | hlen
          · exact h.overlap hd hbase name hname hbegin hend hlen
          · obtain ⟨mid, rfl⟩ := exists_mid hbegin hend hlen
            exact ⟨mid, hname⟩
        · intro hmatch
          obtain ⟨mid, hname⟩ := hmatch
          exact ⟨_, hname, by rw [List.append_assoc]; exact List.prefix_append _ _,
            List.suffix_append _ _⟩
    | false =>
      have hnone : ¬ Matches fs (dir ++ ['/']) pre suffix := not_matches hd
      rw [iff_false_right hnone, Bool.not_eq_true]
      by_cases hpath : pre = [] ∨ pre = ['.']
      · rw [globBase_missing hd hpath, anyName_beside (by simp) hd]
        constructor
        · intro h
          exact ⟨fun _ hb => absurd hb (by simp [hbase]), fun hyes => absurd hyes (by simp [hd]),
            fun _ _ => h⟩
        · intro h
          exact h.missing hd hpath
      · obtain ⟨hne, hdot⟩ := not_or.mp hpath
        refine iff_of_true (anyName_missing hd hpre hne hdot) ?_
        exact ⟨fun _ hb => absurd hb (by simp [hbase]), fun hyes => absurd hyes (by simp [hd]),
          fun _ h => absurd h hpath⟩

end Pattern

/-- A directory `/d` with a directory `sub` and a file `sub-1`. -/
def subTree : FileSystem where
  nodes := .ofList [(["d".toList], .dir), (["d".toList, "sub".toList], .dir),
    (["d".toList, "sub-1".toList], .file none)]
  cwd := []
  closed := by decide +kernel

/-- `/d/s*1`. -/
theorem globAnyExists_iff_sub :
    (globAnyExists subTree ("/d".toList ++ '/' :: "s".toList ++ '*' :: "1".toList) = true ↔
      Matches subTree ("/d".toList ++ ['/']) "s".toList "1".toList) ↔
    Probes subTree "/d".toList "s".toList "1".toList :=
  globAnyExists_iff subTree "1".toList (by decide) (by decide) (by decide)

/-- `/d/sub*` does not find `sub-1`, because `/d/sub` is looked into. -/
theorem directory_hides_match : ¬ ∀ (fs : FileSystem) (dir pre suffix : Str), '*' ∉ dir →
    '*' ∉ pre → '/' ∉ pre → isDir fs (dir ++ ['/']) = true →
    (globAnyExists fs (dir ++ '/' :: pre ++ '*' :: suffix) = true ↔
      Matches fs (dir ++ ['/']) pre suffix) := by
  intro h
  have hfound := (h subTree "/d".toList "sub".toList [] (by decide) (by decide) (by decide)
    (by decide +kernel)).mpr ⟨"-1".toList, ["sub".toList, "sub-1".toList], by decide +kernel,
      by decide⟩
  exact absurd hfound (by decide +kernel)

end Systeml.Runtime
