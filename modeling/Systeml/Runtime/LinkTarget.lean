import Systeml.Runtime.Mask

/-!
# What the links of `enable` lead to

All links of one `enable` have the same target: the file that has the unit's own name, or
that bare name where there is none. The loader falls back on the template of an instance,
and `enable` does not.
-/

namespace Systeml.Runtime

open Systeml.Lib Systeml.Unit

/-! ## New links -/

/-- No link is new but to one target. -/
def OnlyLinks (t : Str) (fs fs' : FileSystem) : Prop :=
  ∀ p s, fs'.node? p = some (.symlink s) → fs.node? p = some (.symlink s) ∨ s = t

variable {t : Str} {fs g : FileSystem}

theorem OnlyLinks.refl (t : Str) (fs : FileSystem) : OnlyLinks t fs fs := fun _ _ h => Or.inl h

theorem OnlyLinks.trans {k : FileSystem} (h : OnlyLinks t fs g) (h' : OnlyLinks t g k) :
    OnlyLinks t fs k := by
  intro p s hp
  rcases h' p s hp with hp | he
  · exact h p s hp
  · exact Or.inr he

theorem onlyLinks_createDirAll (t : Str) (fs : FileSystem) (dir : Str) :
    OnlyLinks t fs (fs.createDirAll dir).1 := by
  intro p s hp
  rcases (FileSystem.createDirAll_spec fs dir).2.1 hp with hp | he
  · exact Or.inl hp
  · exact absurd he (by simp)

theorem onlyLinks_tryRemove (t : Str) (fs : FileSystem) (p : Str) :
    OnlyLinks t fs (tryRemove fs p) := by
  unfold tryRemove
  cases h : fs.removeFile p with
  | none => exact .refl t fs
  | some g =>
    obtain ⟨-, -, -, -, hext, -, -⟩ := FileSystem.removeFile_spec h
    exact fun q s hq => Or.inl (hext.node hq)

theorem onlyLinks_report (fs : FileSystem) (link t : Str) :
    OnlyLinks t fs (report fs link t).1 ∧
      ∀ made, (report fs link t).2 = .ok made → ∀ c ∈ made, c.source = t := by
  unfold report
  cases h : fs.symlink t link with
  | none => exact ⟨.refl t fs, fun made hmade => absurd hmade (by simp)⟩
  | some g =>
    obtain ⟨d, name, -, -, -, hself, hother⟩ := FileSystem.symlink_spec h
    refine ⟨?_, ?_⟩
    · intro p s hp
      by_cases hat : p = d ++ [name]
      · subst hat
        have hs := Option.some.inj (hp.symm.trans hself)
        exact Or.inr (Node.symlink.inj hs)
      · exact Or.inl ((hother p hat).symm.trans hp)
    · intro made hmade c hc
      obtain rfl := Except.ok.inj hmade
      rw [List.mem_singleton.mp hc]

theorem onlyLinks_putLink (fs : FileSystem) (link t : Str) (force : Bool) :
    OnlyLinks t fs (putLink fs link t force).1 ∧
      ∀ made, (putLink fs link t force).2 = .ok made → ∀ c ∈ made, c.source = t := by
  unfold putLink
  split
  next =>
    split
    next =>
      refine ⟨.refl t fs, ?_⟩
      intro made hmade c hc
      obtain rfl := Except.ok.inj hmade
      exact absurd hc List.not_mem_nil
    next =>
      obtain ⟨hlinks, hmade⟩ := onlyLinks_report (tryRemove fs link) link t
      exact ⟨(onlyLinks_tryRemove t fs link).trans hlinks, hmade⟩
  next => exact onlyLinks_report fs link t

theorem onlyLinks_linkOne (fs : FileSystem) (dir name t : Str) (force : Bool) :
    OnlyLinks t fs (linkOne fs dir name t force).1 ∧
      ∀ made, (linkOne fs dir name t force).2 = .ok made → ∀ c ∈ made, c.source = t := by
  have hdir := onlyLinks_createDirAll t fs dir
  unfold linkOne
  cases hc : fs.createDirAll dir with
  | mk g o =>
    rw [hc] at hdir
    cases o with
    | none => exact ⟨hdir, fun made hmade => absurd hmade (by simp)⟩
    | some d =>
      obtain ⟨hlinks, hmade⟩ := onlyLinks_putLink g (joinPath dir name) t force
      exact ⟨hdir.trans hlinks, hmade⟩

/-- One target for all requests. -/
theorem onlyLinks_linkAll (t : Str) (force : Bool) : ∀ (rs : List (Str × Str)) (fs : FileSystem),
    OnlyLinks t fs (linkAll t force fs rs).1 ∧
      ∀ made, (linkAll t force fs rs).2 = .ok made → ∀ c ∈ made, c.source = t
  | [], fs => by
    refine ⟨.refl t fs, ?_⟩
    intro made hmade c hc
    obtain rfl := Except.ok.inj hmade
    exact absurd hc List.not_mem_nil
  | r :: rs, fs => by
    obtain ⟨hone, hfirst⟩ := onlyLinks_linkOne fs r.1 r.2 t force
    unfold linkAll
    cases h : linkOne fs r.1 r.2 t force with
    | mk g o =>
      rw [h] at hone hfirst
      cases o with
      | error e => exact ⟨hone, fun made hmade => absurd hmade (by simp)⟩
      | ok made =>
        obtain ⟨hrest, hmore⟩ := onlyLinks_linkAll t force rs g
        simp only
        cases hl : linkAll t force g rs with
        | mk k o =>
          rw [hl] at hrest hmore
          cases o with
          | error e => exact ⟨hone.trans hrest, fun made hmade => absurd hmade (by simp)⟩
          | ok more =>
            refine ⟨hone.trans hrest, ?_⟩
            intro all hall c hc
            obtain rfl := Except.ok.inj hall
            rcases List.mem_append.mp hc with hc | hc
            · exact hfirst made rfl c hc
            · exact hmore more rfl c hc

/-! ## The target -/

/-- A link to `t` is made: it is new on disk, or it is reported. -/
def LinkMade (fs : FileSystem) (r : FileSystem × Except InstallError EnableChanges) (t : Str) :
    Prop :=
  (∃ p, r.1.node? p = some (.symlink t) ∧ fs.node? p ≠ some (.symlink t)) ∨
    ∃ out, r.2 = .ok out ∧ ∃ c ∈ out.changes, c.source = t

theorem enable_target {e : Env} {n : UnitName} {i : Install} {runtime force : Bool}
    (h : LinkMade fs (enable e fs n i runtime force) t) :
    t = (locateFragment e fs n).getD n.filename := by
  have hall : OnlyLinks ((locateFragment e fs n).getD n.filename) fs
        (enable e fs n i runtime force).1 ∧
      ∀ out, (enable e fs n i runtime force).2 = .ok out → ∀ c ∈ out.changes,
        c.source = (locateFragment e fs n).getD n.filename := by
    unfold enable
    split
    next =>
      refine ⟨.refl _ fs, ?_⟩
      intro out hout c hc
      obtain rfl := Except.ok.inj hout
      exact absurd hc List.not_mem_nil
    next =>
      split
      next => exact ⟨.refl _ fs, fun out hout => absurd hout (by simp)⟩
      next base _ =>
        obtain ⟨hlinks, hmade⟩ := onlyLinks_linkAll ((locateFragment e fs n).getD n.filename) force
          (requests base n i) fs
        simp only
        cases hl : linkAll ((locateFragment e fs n).getD n.filename) force fs
            (requests base n i) with
        | mk g o =>
          rw [hl] at hlinks hmade
          cases o with
          | error err => exact ⟨hlinks, fun out hout => absurd hout (by simp)⟩
          | ok changes =>
            refine ⟨hlinks, ?_⟩
            intro out hout c hc
            obtain rfl := Except.ok.inj hout
            exact hmade changes rfl c hc
  rcases h with ⟨p, hp, hnew⟩ | ⟨out, hout, c, hc, rfl⟩
  · exact (hall.1 p t hp).resolve_left hnew
  · exact hall.2 out hout c hc

/-! ## The main fragment -/

/-- The unit is loaded, and its main fragment is `m`. -/
structure LoadedFrom (P : LeafParsers) (e : Env) (fs : FileSystem) (n : UnitName) (lu : Loaded)
    (m : Str) : Prop where
  loaded : loadUnitIn P (fileTree fs) n e.userSearchPaths = .ok lu
  main : locateMain (fileTree fs) n e.userSearchPaths = .ok (m, lu.fromTemplate)

theorem LoadedFrom.of_loaded {P : LeafParsers} {e : Env} {n : UnitName} {lu : Loaded}
    (h : loadUnitIn P (fileTree fs) n e.userSearchPaths = .ok lu) :
    ∃ m, LoadedFrom P e fs n lu m := by
  have hload := h
  unfold loadUnitIn at h
  split at h
  next => exact absurd h (by simp)
  next m fromTemplate hmain =>
    split at h
    next => exact absurd h (by simp)
    next =>
      split at h
      next => exact absurd h (by simp)
      next =>
        obtain rfl := Except.ok.inj h
        exact ⟨m, hload, hmain⟩

theorem LoadedFrom.of_isSome {P : LeafParsers} {e : Env} {n : UnitName}
    (h : (loadUnitIn P (fileTree fs) n e.userSearchPaths).toOption.isSome = true) :
    ∃ lu m, LoadedFrom P e fs n lu m := by
  cases hl : loadUnitIn P (fileTree fs) n e.userSearchPaths with
  | error err =>
    rw [hl] at h
    exact absurd h (by simp [Except.toOption])
  | ok lu => exact ⟨lu, LoadedFrom.of_loaded hl⟩

/-- The path of a template in an absolute directory is not spelt like the name of an
instance. -/
theorem template_path_ne {n tpl : UnitName} (htpl : n.templateForm = some tpl) {base : Str}
    (hbase : isAbsolute base = true) : joinPath base tpl.filename ≠ n.filename := by
  obtain ⟨stem, inst, kind⟩ := n
  unfold UnitName.templateForm UnitName.isInstance at htpl
  cases inst with
  | none => exact absurd htpl (by simp)
  | some inst =>
    have hinst : inst ≠ [] := by
      rintro rfl
      exact absurd htpl (by simp)
    have hform : UnitName.template stem kind = tpl := by
      rw [if_pos (by simpa using hinst)] at htpl
      exact Option.some.inj htpl
    subst hform
    intro he
    have hname : stem ++ '@' :: inst ++ kind.suffix =
        joinPath base (stem ++ '@' :: [] ++ kind.suffix) := he.symm
    unfold joinPath at hname
    split at hname
    next =>
      have hlen := congrArg List.length hname
      simp only [List.length_append, List.length_cons, List.length_nil] at hlen
      have hpos := List.length_pos_iff.mpr hinst
      omega
    next hrel =>
      -- the name would begin with the directory, and so would that of the template
      cases base with
      | nil => exact absurd hbase (by simp [isAbsolute])
      | cons c base =>
        obtain rfl : c = '/' := by simpa [isAbsolute] using hbase
        cases stem with
        | nil =>
          rw [if_neg (List.cons_ne_nil _ _)] at hname
          split at hname <;> exact absurd (List.cons.inj hname).1 (by decide)
        | cons d stem =>
          rw [if_neg (List.cons_ne_nil _ _)] at hname
          refine hrel ?_
          split at hname
          next => rw [(List.cons.inj hname).1]; rfl
          next => rw [(List.cons.inj hname).1]; rfl

/-- **When a link leads to what is loaded**: a search directory has a file of the unit's own
name. Otherwise the fragment is a template, and the link is to the bare name of the unit,
which is spelt like the path of the template in a relative directory at most
(`template_path_ne`). -/
theorem link_target_iff {P : LeafParsers} {e : Env} {n : UnitName} {lu : Loaded} {m : Str}
    (hload : LoadedFrom P e fs n lu m) {i : Install} {runtime force : Bool}
    (hlink : LinkMade fs (enable e fs n i runtime force) t) :
    t = m ↔ (∃ base ∈ e.userSearchPaths, fs.isFile (joinPath base n.filename) = true) ∨
      ∃ tpl, n.templateForm = some tpl ∧
        (e.userSearchPaths.map fun base => joinPath base tpl.filename).find? fs.isFile =
          some n.filename := by
  obtain rfl := enable_target hlink
  have hmain := hload.main
  unfold locateMain at hmain
  cases hown : locateFragment e fs n with
  | some p =>
    have hfind : (e.userSearchPaths.map fun base => joinPath base n.filename).find?
        (fileTree fs).isFile = some p := hown
    rw [hfind] at hmain
    obtain ⟨rfl, -⟩ := Prod.mk.inj (Except.ok.inj hmain)
    refine iff_of_true rfl (Or.inl ?_)
    obtain ⟨base, hbase, rfl⟩ := List.mem_map.mp (List.mem_of_find?_eq_some hown)
    exact ⟨base, hbase, List.find?_some hown⟩
  | none =>
    have hnone : ¬ ∃ base ∈ e.userSearchPaths, fs.isFile (joinPath base n.filename) = true := by
      rintro ⟨base, hbase, hfile⟩
      have hno := List.find?_eq_none.mp hown _ (List.mem_map.mpr ⟨base, hbase, rfl⟩)
      exact hno hfile
    have hfind : (e.userSearchPaths.map fun base => joinPath base n.filename).find?
        (fileTree fs).isFile = none := hown
    rw [or_iff_right hnone]
    rw [hfind] at hmain
    cases htpl : n.templateForm with
    | none =>
      rw [htpl] at hmain
      exact absurd hmain (by simp)
    | some tpl =>
      rw [htpl] at hmain
      simp only at hmain
      split at hmain
      next p hp =>
        obtain ⟨rfl, -⟩ := Prod.mk.inj (Except.ok.inj hmain)
        have hp' : (e.userSearchPaths.map fun base => joinPath base tpl.filename).find?
            fs.isFile = some p := hp
        constructor
        · intro he
          exact ⟨tpl, rfl, hp'.trans (congrArg some he.symm)⟩
        · rintro ⟨tpl', htpl', hp''⟩
          obtain rfl := Option.some.inj htpl'
          exact (Option.some.inj (hp'.symm.trans hp'')).symm
      next => exact absurd hmain (by simp)

/-! ## Instances of a template -/

/-- A vendor's template, and the file of one of its instances. -/
def templateTree : FileSystem where
  nodes := .ofList [(["usr".toList], .dir), (["usr".toList, "lib".toList], .dir),
    (["usr".toList, "lib".toList, "systemd".toList], .dir), (libUser, .dir),
    (libUser ++ ["foo@.service".toList], .file (some "[Service]\n".toList)),
    (libUser ++ ["foo@baz.service".toList], .file (some "[Service]\n".toList))]
  cwd := []
  closed := by decide +kernel

def fooBar : UnitName := ⟨"foo".toList, some "bar".toList, .service⟩

def fooBaz : UnitName := ⟨"foo".toList, some "baz".toList, .service⟩

/-- The link of `foo@baz.service` is to its own file. -/
theorem link_target_iff_vendor : ∃ lu m t, LoadedFrom noLeaves configC templateTree fooBaz lu m ∧
    (t = m ↔ (∃ base ∈ configC.userSearchPaths,
        templateTree.isFile (joinPath base fooBaz.filename) = true) ∨
      ∃ tpl, fooBaz.templateForm = some tpl ∧
        (configC.userSearchPaths.map fun base => joinPath base tpl.filename).find?
          templateTree.isFile = some fooBaz.filename) := by
  have hload : (loadUnitIn noLeaves (fileTree templateTree) fooBaz
      configC.userSearchPaths).toOption.isSome = true := by decide +kernel
  obtain ⟨lu, m, hfrom⟩ := LoadedFrom.of_isSome hload
  have hmade : (enable configC templateTree fooBaz
      { wantedBy := [⟨"default".toList, none, .target⟩] } false false).2 =
      .ok ⟨true, [⟨"symlink", "/c/systemd/user/default.target.wants/foo@baz.service".toList,
        "/usr/lib/systemd/user/foo@baz.service".toList⟩]⟩ := by decide +kernel
  exact ⟨lu, m, _, hfrom, link_target_iff hfrom
    (Or.inr ⟨_, hmade, _, List.mem_singleton_self _, rfl⟩)⟩

/-- The link of `foo@bar.service` is to `foo@bar.service`, which is nowhere. -/
theorem template_link_dangles : ¬ ∀ (P : LeafParsers) (e : Env) (fs : FileSystem) (n : UnitName)
    (lu : Loaded) (m : Str) (i : Install) (runtime force : Bool) (t : Str),
    LoadedFrom P e fs n lu m → LinkMade fs (enable e fs n i runtime force) t → t = m := by
  intro h
  have hload : (loadUnitIn noLeaves (fileTree templateTree) fooBar
      configC.userSearchPaths).toOption.isSome = true := by decide +kernel
  obtain ⟨lu, m, hfrom⟩ := LoadedFrom.of_isSome hload
  have hmade : (enable configC templateTree fooBar
      { wantedBy := [⟨"default".toList, none, .target⟩] } false false).2 =
      .ok ⟨true, [⟨"symlink", "/c/systemd/user/default.target.wants/foo@bar.service".toList,
        "foo@bar.service".toList⟩]⟩ := by decide +kernel
  have hmain : locateMain (fileTree templateTree) fooBar configC.userSearchPaths =
      .ok ("/usr/lib/systemd/user/foo@.service".toList, true) := by decide +kernel
  have hm := hfrom.main
  rw [hmain] at hm
  obtain ⟨rfl, -⟩ := Prod.mk.inj (Except.ok.inj hm)
  have he := h _ _ _ _ _ _ _ _ _ _ hfrom
    (Or.inr ⟨_, hmade, _, List.mem_singleton_self _, rfl⟩)
  exact absurd he (by decide)

end Systeml.Runtime
