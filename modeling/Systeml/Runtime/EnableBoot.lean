import Systeml.Runtime.Boot
import Systeml.Runtime.LinkTarget

/-!
# What is enabled starts at the next boot

`enable` puts its links into a directory of the search path (`baseDir_mem`), so a unit that
was enabled for a target has an install link and is started by the next boot
(`enable_boots`). Enabling it again changes nothing (`enable_again`). `disable` takes the
links away unless they are reached through a symbolic link, or are directories; then, if
no other directory has one, the next boot leaves the unit alone (`disable_boots`).
-/

namespace Systeml.Runtime

open Systeml.Lib Systeml.Unit Systeml.Deps

variable {e : Env} {fs g : FileSystem} {n : UnitName} {i : Install} {runtime : Bool} {base : Str}

/-! ## The directory -/

theorem joinPath_config (h : Str) : joinPath (joinPath h ".config".toList) "systemd/user".toList =
    joinPath h ".config/systemd/user".toList := by
  have hrel : isAbsolute ".config".toList = false := rfl
  have hrel' : isAbsolute ".config/systemd/user".toList = false := rfl
  have hrel'' : isAbsolute "systemd/user".toList = false := rfl
  have hlast : ∀ s p : Str, p.getLast? = some 'g' → (s ++ p).getLast? = some 'g' := by
    intro s p hp
    rw [List.getLast?_append, hp]
    rfl
  have houter : ∀ s : Str, s ≠ [] → s.getLast? = some 'g' → joinPath s "systemd/user".toList =
      s ++ '/' :: "systemd/user".toList := by
    intro s hs hg
    unfold joinPath
    rw [hrel'', if_neg Bool.false_ne_true, if_neg hs, hg, if_neg (by decide)]
  have hinner : ∀ p : Str, isAbsolute p = false → joinPath h p =
      if h = [] then p else if h.getLast? = some '/' then h ++ p else h ++ '/' :: p := by
    intro p hp
    unfold joinPath
    rw [hp, if_neg Bool.false_ne_true]
  rw [hinner _ hrel, hinner _ hrel']
  split
  · exact houter _ (by decide) rfl
  · split
    · rw [houter _ (by simp) (hlast h _ rfl), List.append_assoc]
      rfl
    · rw [houter _ (by simp) (hlast h _ rfl), List.append_assoc]
      rfl

/-- Links go into a directory of the search path. -/
theorem baseDir_mem (h : e.baseDir runtime = some base) : base ∈ e.userSearchPaths := by
  have hconfig : e.configDir = some base → base ∈ e.userSearchPaths := by
    intro hc
    have hhome : (e.configHome.map fun c => joinPath c "systemd/user".toList) = some base := by
      unfold Env.configDir at hc
      unfold Env.configHome
      cases hx : e.xdgConfigHome with
      | some x =>
        rw [hx] at hc
        exact hc
      | none =>
        rw [hx] at hc
        simp only [Option.map_map] at hc ⊢
        rw [← hc]
        congr 1
        funext h
        exact joinPath_config h
    unfold Env.userSearchPaths
    rw [hhome]
    simp
  unfold Env.baseDir at h
  split at h
  · split at h
    next rt hrt =>
      obtain rfl := Option.some.inj h
      unfold Env.userSearchPaths Env.below
      rw [hrt]
      simp
    next => exact hconfig h
  · exact hconfig h

/-! ## Links that are made -/

/-- Something stands where the link was asked for. -/
def Settled (fs : FileSystem) (r : Str × Str) : Prop :=
  ∃ d x, fs.canonicalize r.1 = some d ∧ fs.node? (d ++ [r.2]) = some x

theorem Settled.mono {r : Str × Str} (h : Settled fs r) (hext : FileSystem.Extends fs g) :
    Settled g r := by
  obtain ⟨d, x, hd, hx⟩ := h
  exact ⟨d, x, FileSystem.canonicalize_mono hext hd, hext.node hx⟩

theorem linkOne_settled {r : Str × Str} {source : Str} {made : List UnitFileChange}
    (hname : PlainName r.2) (h : linkOne fs r.1 r.2 source false = (g, .ok made)) :
    Settled g r := by
  have hmade := (FileSystem.createDirAll_spec fs r.1).2.2
  obtain ⟨k, hc, heq⟩ | ⟨k, d, hc, hocc, heq⟩ | ⟨k, d, k', hc, -, -, hext, hself, -, heq⟩ :=
    linkOne_cases fs source hname
  · rw [heq] at h
    exact absurd (Prod.mk.inj h).2 (by simp)
  · rw [heq] at h
    obtain ⟨rfl, -⟩ := Prod.mk.inj h
    obtain ⟨d', x, hd', hx⟩ := (occupied_join hname).mp hocc
    exact ⟨d', x, hd', hx⟩
  · rw [heq] at h
    obtain ⟨rfl, -⟩ := Prod.mk.inj h
    rw [hc] at hmade
    exact ⟨d, _, FileSystem.canonicalize_mono hext (hmade d rfl).1, hself⟩

theorem linkAll_settled {source : Str} : ∀ {rs : List (Str × Str)} {fs g : FileSystem}
    {made : List UnitFileChange}, (∀ r ∈ rs, BaseRequest base r) →
    linkAll source false fs rs = (g, .ok made) → ∀ r ∈ rs, Settled g r
  | [], _, _, _, _, _ => fun _ hr => absurd hr List.not_mem_nil
  | r :: rs, fs, g, made, hreqs, h => by
    obtain ⟨hr, hrs⟩ := List.forall_mem_cons.mp hreqs
    unfold linkAll at h
    cases hone : linkOne fs r.1 r.2 source false with
    | mk k o =>
      rw [hone] at h
      cases o with
      | error err => exact absurd (Prod.mk.inj h).2 (by simp)
      | ok made' =>
        simp only at h
        cases hrest : linkAll source false k rs with
        | mk k' o' =>
          rw [hrest] at h
          cases o' with
          | error err => exact absurd (Prod.mk.inj h).2 (by simp)
          | ok more =>
            obtain ⟨rfl, -⟩ := Prod.mk.inj h
            have hext : FileSystem.Extends k k' := by
              have hall := linkAll_extends source k hrs
              rw [hrest] at hall
              exact hall
            refine List.forall_mem_cons.mpr ⟨?_, linkAll_settled hrs hrest⟩
            exact (linkOne_settled hr.name hone).mono hext

/-- Such a request changes nothing. -/
theorem linkOne_of_settled {r : Str × Str} {source : Str} (hname : PlainName r.2)
    (h : Settled fs r) : linkOne fs r.1 r.2 source false = (fs, .ok []) := by
  obtain ⟨d, x, hd, hx⟩ := h
  have hdir := FileSystem.parent_dir hx
  have hmade : fs.createDirAll r.1 = (fs, some d) := by
    have hwalk : fs.makeDirs (FileSystem.startOf fs.cwd r.1) (components r.1 ++ []) =
        fs.makeDirs d [] := FileSystem.makeDirs_of_walk hd
    rw [List.append_nil] at hwalk
    exact hwalk.trans (by rw [FileSystem.makeDirs, if_pos hdir])
  have hocc : occupied fs (joinPath r.1 r.2) = true := (occupied_join hname).mpr ⟨d, x, hd, hx⟩
  unfold linkOne
  rw [hmade]
  simp only [putLink, hocc, if_true, Bool.not_false]

theorem linkAll_of_settled {source : Str} : ∀ {rs : List (Str × Str)},
    (∀ r ∈ rs, BaseRequest base r) → (∀ r ∈ rs, Settled fs r) →
    linkAll source false fs rs = (fs, .ok [])
  | [], _, _ => rfl
  | r :: rs, hreqs, h => by
    obtain ⟨hr, hrs⟩ := List.forall_mem_cons.mp hreqs
    obtain ⟨hset, hrest⟩ := List.forall_mem_cons.mp h
    unfold linkAll
    rw [linkOne_of_settled hr.name hset]
    simp only
    rw [linkAll_of_settled hrs hrest]
    rfl

/-- What an `enable` that succeeds leaves. -/
theorem enable_settled {out : EnableChanges} (hbase : e.baseDir runtime = some base)
    (hplain : NamesPlain n i) (h : enable e fs n i runtime false = (g, .ok out)) :
    out.carriesInstallInfo = !i.isEmpty ∧ ∀ r ∈ requests base n i, Settled g r := by
  unfold enable at h
  split at h
  next hempty =>
    obtain ⟨-, he⟩ := Prod.mk.inj h
    obtain rfl := Except.ok.inj he
    refine ⟨by rw [hempty]; rfl, ?_⟩
    simp only [Install.isEmpty, Bool.and_eq_true, List.isEmpty_iff] at hempty
    obtain ⟨⟨⟨⟨⟨hw, hr⟩, hu⟩, -⟩, ha⟩, -⟩ := hempty
    simp [requests, hw, hr, hu, ha]
  next hfull =>
    rw [hbase] at h
    simp only at h
    cases hall : linkAll ((locateFragment e fs n).getD n.filename) false fs
        (requests base n i) with
    | mk k o =>
      rw [hall] at h
      cases o with
      | error err => exact absurd (Prod.mk.inj h).2 (by simp)
      | ok changes =>
        obtain ⟨rfl, he⟩ := Prod.mk.inj h
        obtain rfl := Except.ok.inj he
        exact ⟨by simp [hfull], linkAll_settled (requests_base hplain) hall⟩

/-- **Enabling a unit again changes nothing** and reports no change. -/
theorem enable_again {out : EnableChanges} (hplain : NamesPlain n i)
    (h : enable e fs n i runtime false = (g, .ok out)) :
    enable e g n i runtime false = (g, .ok ⟨out.carriesInstallInfo, []⟩) := by
  cases hbase : e.baseDir runtime with
  | none =>
    unfold enable at h ⊢
    rw [hbase] at h ⊢
    split at h
    next hempty =>
      obtain ⟨-, he⟩ := Prod.mk.inj h
      obtain rfl := Except.ok.inj he
      rw [if_pos hempty]
    next => exact absurd (Prod.mk.inj h).2 (by simp)
  | some base =>
    obtain ⟨hinfo, hset⟩ := enable_settled hbase hplain h
    unfold enable
    rw [hbase, hinfo]
    split
    next hempty =>
      rw [hempty]
      rfl
    next hfull =>
      simp only [linkAll_of_settled (requests_base hplain) hset]
      simp [hfull]

/-! ## Links that are found -/

theorem isInstallDir_suffix {suffix : String} (h : suffix = ".wants" ∨ suffix = ".requires" ∨
    suffix = ".upholds") (s : Str) : isInstallDir (s ++ suffix.toList) = true := by
  have hstrip : ∀ suf : Str, (stripSuffix (s ++ suf) suf).isSome = true := fun suf => by
    rw [stripSuffix_eq_some.mpr rfl]
    rfl
  unfold isInstallDir
  rcases h with rfl | rfl | rfl
  · rw [hstrip]
    rfl
  · rw [hstrip (".requires").toList, Bool.or_true]
    rfl
  · rw [hstrip (".upholds").toList, Bool.or_true]

/-- When a directory has a link for the unit. -/
theorem hasLinkIn_iff {want : Str} : hasLinkIn g want base = true ↔
    ∃ b dirName x, g.canonicalize base = some b ∧ g.node? b = some .dir ∧
      g.node? (b ++ [dirName]) = some x ∧ isInstallDir dirName = true ∧
      occupied g (joinPath (joinPath base dirName) want) = true := by
  unfold hasLinkIn
  cases hread : g.readDir base with
  | none =>
    refine ⟨fun h => absurd h (by simp), ?_⟩
    rintro ⟨b, dirName, x, hb, hdir, -⟩
    unfold FileSystem.readDir at hread
    rw [hb] at hread
    simp only [if_pos hdir] at hread
    exact absurd hread (by simp)
  | some entries =>
    obtain ⟨b, hb, hdir, hmem⟩ := FileSystem.readDir_spec hread
    simp only [List.any_eq_true, Bool.and_eq_true]
    constructor
    · rintro ⟨entry, hentry, hinstall, hocc⟩
      exact ⟨b, entry.1, entry.2, hb, hdir, (hmem _ _).mp hentry, hinstall, hocc⟩
    · rintro ⟨b', dirName, x, hb', -, hx, hinstall, hocc⟩
      obtain rfl := Option.some.inj (hb.symm.trans hb')
      exact ⟨(dirName, x), (hmem _ _).mpr hx, hinstall, hocc⟩

/-- A link in the directory of a target is found again. -/
theorem hasLinkIn_of_settled {suffix : String} {t : UnitName} {want : Str}
    (hsuffix : suffix = ".wants" ∨ suffix = ".requires" ∨ suffix = ".upholds")
    (ht : PlainName (t.filename ++ suffix.toList)) (hw : PlainName want)
    (h : Settled g (targetDir base suffix t, want)) : hasLinkIn g want base = true := by
  obtain ⟨d, x, hd, hx⟩ := h
  have hd' : g.canonicalize (joinPath base (t.filename ++ suffix.toList)) = some d := hd
  rw [FileSystem.canonicalize_join ht] at hd'
  obtain ⟨b, hb, hstep⟩ := Option.bind_eq_some_iff.mp hd'
  obtain ⟨y, hy⟩ := Option.ne_none_iff_exists'.mp ((FileSystem.step_spec hstep).2 ht.notDotDot)
  exact hasLinkIn_iff.mpr ⟨b, _, y, hb, FileSystem.parent_dir hy, hy,
    isInstallDir_suffix hsuffix _, (occupied_join hw).mpr ⟨d, x, hd, hx⟩⟩

/-- A unit that was enabled for some target has an install link. -/
theorem hasInstallLink_enable {out : EnableChanges} (hplain : NamesPlain n i)
    (htargets : i.wantedBy ++ i.requiredBy ++ i.upheldBy ≠ [])
    (h : enable e fs n i runtime false = (g, .ok out)) : hasInstallLink e g n = true := by
  have hfull : i.isEmpty = false := by
    cases hempty : i.isEmpty with
    | false => rfl
    | true =>
      simp only [Install.isEmpty, Bool.and_eq_true, List.isEmpty_iff] at hempty
      obtain ⟨⟨⟨⟨⟨hw, hr⟩, hu⟩, -⟩, -⟩, -⟩ := hempty
      exact absurd (by rw [hw, hr, hu]; rfl) htargets
  have hbase : ∃ base, e.baseDir runtime = some base := by
    cases hb : e.baseDir runtime with
    | some base => exact ⟨base, rfl⟩
    | none =>
      unfold enable at h
      rw [hb, hfull] at h
      exact absurd (Prod.mk.inj h).2 (by simp)
  obtain ⟨base, hbase⟩ := hbase
  obtain ⟨-, hset⟩ := enable_settled hbase hplain h
  have hw := plainName_filename hplain.1
  refine List.any_eq_true.mpr ⟨base, baseDir_mem hbase, ?_⟩
  obtain ⟨t, ht⟩ := List.exists_mem_of_ne_nil _ htargets
  have htarget : ∀ suffix : String, '/' ∉ suffix.toList →
      PlainName (t.filename ++ suffix.toList) := by
    intro suffix hsuffix
    have hlen := filename_length t
    refine plainName_of_length ?_ (by rw [List.length_append]; omega)
    have hslash := hplain.2 t (List.mem_append_left _ ht)
    simpa using ⟨hslash, hsuffix⟩
  simp only [List.mem_append] at ht
  rcases ht with (ht | ht) | ht
  · refine hasLinkIn_of_settled (Or.inl rfl) (htarget ".wants" (by decide)) hw (hset _ ?_)
    simp only [requests, List.mem_append, List.mem_map]
    exact Or.inl (Or.inl (Or.inl ⟨t, ht, rfl⟩))
  · refine hasLinkIn_of_settled (Or.inr (Or.inl rfl)) (htarget ".requires" (by decide)) hw
      (hset _ ?_)
    simp only [requests, List.mem_append, List.mem_map]
    exact Or.inl (Or.inl (Or.inr ⟨t, ht, rfl⟩))
  · refine hasLinkIn_of_settled (Or.inr (Or.inr rfl)) (htarget ".upholds" (by decide)) hw
      (hset _ ?_)
    simp only [requests, List.mem_append, List.mem_map]
    exact Or.inl (Or.inr ⟨t, ht, rfl⟩)

/-! ## What the next boot does -/

section Boot

variable {load : (n : UnitName) → Option (LoadedUnit n)}

/-- What a boot from the file system comes up with. -/
def BootShows (e : Env) (fs : FileSystem) (load : (n : UnitName) → Option (LoadedUnit n))
    (u : UnitName) (x : Shown) : Prop :=
  ∃ k w, runs World.call (World.newManager true)
      (.daemonReload (searchPaths e fs load) :: List.replicate k (.other .reloadStep)) = some w ∧
    w.lock = .free ∧ ((w.activateEnabledUnits (hasInstallLink e fs)).mgr.status.get? u).map
      UnitStatus.shown = some x

/-- **A unit that is enabled for a target is started by the next boot.** -/
theorem enable_boots {out : EnableChanges} (hplain : NamesPlain n i)
    (htargets : i.wantedBy ++ i.requiredBy ++ i.upheldBy ≠ [])
    (h : enable e fs n i runtime false = (g, .ok out)) (hload : Loads e g load n)
    (hkind : isBootKind n.kind = true) : BootShows e g load n (World.startedShown n.kind) := by
  obtain ⟨k, w, hrun, hw, hl⟩ := World.loadedUnits_reload (searchPaths e g load)
  have hact := activated_of_loadedUnits hw
  exact ⟨k, w, hrun, hl, hact.started n hload hkind (hasInstallLink_enable hplain htargets h)⟩

/-- What `disable` does not reach: a directory of links that is a symbolic link, or a
directory in the place of a link. -/
def OutOfReach (g : FileSystem) (base want : Str) : Prop :=
  ∃ b dirName, g.canonicalize base = some b ∧ isInstallDir dirName = true ∧
    ((∃ t, g.node? (b ++ [dirName]) = some (.symlink t)) ∧
        occupied g (joinPath (joinPath base dirName) want) = true ∨
      g.node? (b ++ [dirName] ++ [want]) = some .dir)

/-- After `disable` the directory has a link exactly if there is one out of its reach. -/
theorem hasLinkIn_disable {out : EnableChanges} (hbase : e.baseDir runtime = some base)
    (hw : PlainName n.filename) (h : disable e fs n runtime = (g, .ok out)) :
    hasLinkIn g n.filename base = true ↔ OutOfReach g base n.filename := by
  have hg : (disable e fs n runtime).1 = g := by rw [h]
  rw [hasLinkIn_iff]
  constructor
  · rintro ⟨b, dirName, x, hb, hdir, hx, hinstall, hocc⟩
    refine ⟨b, dirName, hb, hinstall, ?_⟩
    cases x with
    | symlink t => exact Or.inl ⟨⟨t, hx⟩, hocc⟩
    | file _ | device =>
      -- nothing is below what is no directory
      obtain ⟨d, y, hd, hy⟩ := (occupied_join hw).mp hocc
      rw [FileSystem.canonicalize_join (FileSystem.plain_name hx), hb, Option.bind_some,
        FileSystem.step_plain hx (by simp)] at hd
      obtain rfl := Option.some.inj hd
      have hparent := FileSystem.parent_dir hy
      rw [hx] at hparent
      exact absurd hparent (by simp)
    | dir =>
      obtain ⟨d, y, hd, hy⟩ := (occupied_join hw).mp hocc
      rw [canonicalize_dir hb hx] at hd
      obtain rfl := Option.some.inj hd
      refine Or.inr ?_
      obtain ⟨hnodir, htree⟩ | ⟨b', entries, hb', hmem, htree⟩ :=
        disable_tree (n := n) (F := fs) hbase
      · obtain rfl := hg.symm.trans htree
        exact absurd hdir (hnodir b hb)
      · have hentries : ∀ entry ∈ entries, fs.node? (b' ++ [entry.1]) = some entry.2 :=
          fun entry he => (hmem entry.1 entry.2).mp he
        have hgtree := hg.symm.trans htree
        have hremoves := disableAll_removes hw hb' (.refl fs) hentries
        rw [← hgtree] at hremoves
        have hbfs := FileSystem.canonicalize_mono hremoves.ext hb
        obtain rfl := Option.some.inj (hb'.symm.trans hbfs)
        by_cases hy' : y = .dir
        · exact hy' ▸ hy
        · have hclear := (disableAll_clears (x := y) hw hb' hy' (.refl n.filename b' fs) hentries
            (hgtree ▸ hb)).1 dirName ((hmem _ _).mpr (hremoves.ext.node hx)) hinstall
          rw [← hgtree] at hclear
          exact absurd hy hclear
  · rintro ⟨b, dirName, hb, hinstall, ⟨⟨t, ht⟩, hocc⟩ | hdir⟩
    · exact ⟨b, dirName, _, hb, FileSystem.parent_dir ht, ht, hinstall, hocc⟩
    · have hx := FileSystem.parent_dir hdir
      exact ⟨b, dirName, _, hb, FileSystem.parent_dir hx, hx, hinstall,
        (occupied_join hw).mpr ⟨_, _, canonicalize_dir hb hx, hdir⟩⟩

/-- **A unit that is disabled is left alone by the next boot**, if no other directory of the
search path has a link for it and none was out of reach. -/
theorem disable_boots {out : EnableChanges} (hbase : e.baseDir runtime = some base)
    (hw : '/' ∉ n.filename) (h : disable e fs n runtime = (g, .ok out)) (hload : Loads e g load n)
    (hreach : ¬ OutOfReach g base n.filename)
    (hothers : ∀ p ∈ e.userSearchPaths, p ≠ base → hasLinkIn g n.filename p = false) :
    BootShows e g load n (.inactive, .unset) := by
  obtain ⟨k, w, hrun, hw', hl⟩ := World.loadedUnits_reload (searchPaths e g load)
  have hact := activated_of_loadedUnits hw'
  refine ⟨k, w, hrun, hl, hact.inactive n hload ?_⟩
  rintro ⟨-, hlink⟩
  obtain ⟨p, hp, hin⟩ := List.any_eq_true.mp hlink
  by_cases hpb : p = base
  · subst hpb
    exact hreach ((hasLinkIn_disable hbase (plainName_filename hw) h).mp hin)
  · rw [hothers p hp hpb] at hin
    exact absurd hin (by simp)

end Boot

/-! ## A service wanted by the default target -/

def byDefault : Install := { wantedBy := [⟨"default".toList, none, .target⟩] }

/-- The loader of a tree whose files are all empty. -/
def emptyLoad (n : UnitName) : Option (LoadedUnit n) := some ⟨.empty n, fits_empty n⟩

def withBaz : FileSystem := (enable configC templateTree fooBaz byDefault false false).1

theorem enable_withBaz : enable configC templateTree fooBaz byDefault false false =
    (withBaz, .ok ⟨true, [⟨"symlink", "/c/systemd/user/default.target.wants/foo@baz.service".toList,
      "/usr/lib/systemd/user/foo@baz.service".toList⟩]⟩) := by
  refine Prod.ext rfl ?_
  decide +kernel

theorem byDefault_plain : NamesPlain fooBaz byDefault := by
  unfold NamesPlain
  decide +kernel

theorem readsBack_baz : ReadsBack fooBaz := by
  unfold ReadsBack
  decide +kernel

theorem enable_again_baz : enable configC withBaz fooBaz byDefault false false =
    (withBaz, .ok ⟨true, []⟩) :=
  enable_again byDefault_plain enable_withBaz

theorem enable_boots_baz : BootShows configC withBaz emptyLoad fooBaz
    (World.startedShown .service) := by
  have hload : Loads configC withBaz emptyLoad fooBaz := by
    refine ⟨readsBack_baz, ⟨"/usr/lib/systemd/user/foo@baz.service".toList, ?_⟩, _, rfl, rfl⟩
    decide +kernel
  exact enable_boots byDefault_plain (by decide) enable_withBaz hload rfl

def withoutBaz : FileSystem := (disable configC withBaz fooBaz false).1

theorem disable_withBaz : ∃ out, disable configC withBaz fooBaz false = (withoutBaz, .ok out) := by
  have hok : (disable configC withBaz fooBaz false).2.isOk = true := by decide +kernel
  unfold withoutBaz
  cases h : disable configC withBaz fooBaz false with
  | mk g o =>
    rw [h] at hok
    cases o with
    | error err => exact absurd hok (by simp [Except.isOk, Except.toBool])
    | ok out => exact ⟨out, rfl⟩

theorem disable_boots_baz : BootShows configC withoutBaz emptyLoad fooBaz (.inactive, .unset) := by
  have hload : Loads configC withoutBaz emptyLoad fooBaz := by
    refine ⟨readsBack_baz, ⟨"/usr/lib/systemd/user/foo@baz.service".toList, ?_⟩, _, rfl, rfl⟩
    decide +kernel
  have hbase : configC.baseDir false = some userC := by decide +kernel
  have hslash : '/' ∉ fooBaz.filename := by decide +kernel
  have hnone : hasLinkIn withoutBaz fooBaz.filename userC = false := by decide +kernel
  obtain ⟨out, hdone⟩ := disable_withBaz
  refine disable_boots hbase hslash hdone hload (fun hreach => ?_) (by decide +kernel)
  rw [(hasLinkIn_disable hbase (plainName_filename hslash) hdone).mpr hreach] at hnone
  exact absurd hnone (by simp)

end Systeml.Runtime
