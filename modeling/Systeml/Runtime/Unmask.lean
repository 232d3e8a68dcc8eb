import Systeml.Runtime.Mask
import Systeml.Runtime.Undo

/-!
# Masking and unmasking

`unmask` removes the link that `mask` puts, and no other link: afterwards no mask is left in
the directory, and a second `unmask` finds nothing to do. The two together leave every file
as it was exactly when `mask` took nothing away and found no mask (`unmask_mask_iff`); with
`force`, what stood in the place of the link is lost.
-/

namespace Systeml.Lib.FileSystem

variable {fs g : FileSystem} {p : Str} {d : Loc} {name : Str}

/-- A path leads on from its place. -/
theorem canonicalize_of_place (h : fs.place p = some (d, name)) :
    fs.canonicalize p = fs.step fs.follow d name := by
  unfold place at h
  split at h
  next => exact absurd h (by simp)
  next c hc =>
    obtain ⟨d', hd, he⟩ := Option.map_eq_some_iff.mp h
    obtain ⟨rfl, rfl⟩ := Prod.mk.inj he
    obtain ⟨front, hfront⟩ := List.getLast?_eq_some_iff.mp hc
    rw [hfront, List.dropLast_concat] at hd
    unfold canonicalize
    rw [hfront, walk_append, hd, Option.bind_some, walk_singleton]

/-- What stands at a place is there, if only as a link that leads nowhere. -/
theorem exists_or_symlink_of_place (h : fs.place p = some (d, name)) (hname : PlainName name) :
    (fs.pathExists p || fs.isSymlink p) = true ↔ fs.node? (d ++ [name]) ≠ none := by
  have hlstat : fs.lstat p = fs.node? (d ++ [name]) := by
    rw [lstat, h, Option.bind_some]
  rw [Bool.or_eq_true]
  constructor
  · rintro (hex | hlink)
    · obtain ⟨x, hx⟩ := Option.isSome_iff_exists.mp hex
      rw [stat, canonicalize_of_place h] at hx
      obtain ⟨q, hq, -⟩ := Option.bind_eq_some_iff.mp hx
      exact (step_spec hq).2 hname.notDotDot
    · intro hnone
      unfold isSymlink readLink at hlink
      rw [hlstat, hnone] at hlink
      exact absurd hlink (by simp)
  · intro hne
    obtain ⟨x, hx⟩ := Option.ne_none_iff_exists'.mp hne
    by_cases hlink : ∃ t, x = .symlink t
    · obtain ⟨t, rfl⟩ := hlink
      refine Or.inr ?_
      unfold isSymlink readLink
      rw [hlstat, hx]
      rfl
    · refine Or.inl ?_
      unfold pathExists stat
      rw [canonicalize_of_place h, step_plain hx fun t ht => hlink ⟨t, ht⟩, Option.bind_some, hx]
      rfl

end Systeml.Lib.FileSystem

namespace Systeml.Runtime

open Systeml.Lib Systeml.Unit

variable {e : Env} {fs fs' g : FileSystem} {n : UnitName} {base : Str} {runtime force : Bool}
  {changes : EnableChanges}

/-- A link to `/dev/null` stands at the path. -/
def MaskAt (fs : FileSystem) (link : Str) : Prop :=
  ∃ t, fs.readLink link = some t ∧ isDevNull t = true

/-- A mask is a link at the place of the path. -/
theorem MaskAt.node {link : Str} (h : MaskAt fs link) :
    ∃ d name t, fs.place link = some (d, name) ∧ fs.node? (d ++ [name]) = some (.symlink t) ∧
      isDevNull t = true := by
  obtain ⟨t, ht, hnull⟩ := h
  unfold FileSystem.readLink at ht
  split at ht
  next u hu =>
    obtain rfl := Option.some.inj ht
    unfold FileSystem.lstat at hu
    obtain ⟨⟨d, name⟩, hplace, hnode⟩ := Option.bind_eq_some_iff.mp hu
    exact ⟨d, name, u, hplace, hnode, hnull⟩
  next => exact absurd ht (by simp)

theorem maskAt_of_node {link t : Str} {d : Loc} {name : Str}
    (hplace : fs.place link = some (d, name)) (hnode : fs.node? (d ++ [name]) = some (.symlink t))
    (hnull : isDevNull t = true) : MaskAt fs link := by
  refine ⟨t, ?_, hnull⟩
  unfold FileSystem.readLink FileSystem.lstat
  rw [hplace, Option.bind_some, hnode]

/-- Without a mask `unmask` does nothing. -/
theorem unmask_of_not_maskAt (hbase : e.baseDir runtime = some base)
    (h : ¬ MaskAt fs (joinPath base n.filename)) : unmask e fs n runtime = (fs, .ok {}) := by
  unfold unmask
  rw [hbase]
  simp only []
  cases hl : fs.readLink (joinPath base n.filename) with
  | none => rfl
  | some t =>
    simp only []
    rw [if_neg fun ht => h ⟨t, hl, ht⟩]

/-- A mask is removed, and nothing else. -/
theorem unmask_of_maskAt (hbase : e.baseDir runtime = some base)
    (h : MaskAt fs (joinPath base n.filename)) :
    ∃ fs' changes d name, unmask e fs n runtime = (fs', .ok changes) ∧
      fs.place (joinPath base n.filename) = some (d, name) ∧ FileSystem.Extends fs' fs ∧
      fs'.node? (d ++ [name]) = none ∧ (∀ q, q ≠ d ++ [name] → fs'.node? q = fs.node? q) ∧
      ¬ MaskAt fs' (joinPath base n.filename) := by
  obtain ⟨d, name, t, hplace, hnode, hnull⟩ := h.node
  obtain ⟨u, hu, hdev⟩ := h
  obtain ⟨fs', hrm⟩ := FileSystem.removeFile_isSome hplace hnode (by simp)
  obtain ⟨d', name', hplace', -, hext, hnone, hsame⟩ := FileSystem.removeFile_spec hrm
  obtain ⟨rfl, rfl⟩ := Prod.mk.inj (Option.some.inj (hplace.symm.trans hplace'))
  refine ⟨fs', ⟨false, [⟨"unlink", joinPath base n.filename, devNull⟩]⟩, d, name, ?_, hplace, hext,
    hnone, hsame, ?_⟩
  · unfold unmask
    rw [hbase]
    simp only [hu]
    rw [if_pos hdev, hrm]
  · intro hmask
    obtain ⟨d', name', t', hplace', hnode', -⟩ := hmask.node
    obtain ⟨rfl, rfl⟩ := Prod.mk.inj (Option.some.inj
      (hplace.symm.trans (FileSystem.place_mono hext hplace')))
    rw [hnone] at hnode'
    exact absurd hnode' (by simp)

theorem undone_createDirAll (fs : FileSystem) (p : Str) : Undone fs (fs.createDirAll p).1 := by
  obtain ⟨hext, hdirs, -⟩ := FileSystem.createDirAll_spec fs p
  exact fun q x hx => ⟨fun h => (hdirs h).resolve_right hx, hext.node⟩

theorem Undone.congr (h : Undone fs g) : Undone fs fs' ↔ Undone g fs' :=
  ⟨fun h' q x hx => (h' q x hx).trans (h q x hx).symm,
    fun h' q x hx => (h' q x hx).trans (h q x hx)⟩

/-- Where all but one place is as before and nothing stands there, all is as before if nothing
but a directory stood there. -/
theorem undone_iff_of_none {p : Loc} (hnone : fs'.node? p = none)
    (hsame : ∀ q, q ≠ p → fs'.node? q = fs.node? q) (hdir : fs.node? p ≠ some .dir) :
    Undone fs fs' ↔ fs.node? p = none := by
  constructor
  · intro h
    by_contra hne
    obtain ⟨x, hx⟩ := Option.ne_none_iff_exists'.mp hne
    have hxdir : x ≠ .dir := fun he => hdir (he ▸ hx)
    have hlost := (h p x hxdir).mpr hx
    rw [hnone] at hlost
    exact absurd hlost (by simp)
  · intro hp q x _
    by_cases hq : q = p
    · rw [hq, hnone, hp]
    · rw [hsame q hq]

/-- What `remove_file` leaves, whatever comes of it. -/
theorem tryRemove_spec {link : Str} {d : Loc} {name : Str}
    (hplace : (tryRemove g link).place link = some (d, name))
    (hnone : (tryRemove g link).node? (d ++ [name]) = none) :
    g.place link = some (d, name) ∧ g.node? (d ++ [name]) ≠ some .dir ∧
      ∀ q, q ≠ d ++ [name] → (tryRemove g link).node? q = g.node? q := by
  unfold tryRemove at hplace hnone ⊢
  cases hr : g.removeFile link with
  | none =>
    rw [hr] at hplace hnone
    exact ⟨hplace, fun hdir => absurd (hnone.symm.trans hdir) (by simp), fun q _ => rfl⟩
  | some g' =>
    rw [hr] at hplace
    obtain ⟨d', name', hplace', hdir, hext, -, hsame⟩ := FileSystem.removeFile_spec hr
    obtain ⟨rfl, rfl⟩ := Prod.mk.inj (Option.some.inj
      (hplace'.symm.trans (FileSystem.place_mono hext hplace)))
    exact ⟨hplace', hdir, hsame⟩

/-- **Masking and unmasking.** After a `mask` that succeeds, `unmask` succeeds; no mask is left
then, so that another `unmask` changes nothing; and every file and link is as it was before
exactly if nothing stood in the place of the link, or something that is no mask did and was
not to be replaced. The configuration directory is taken as it is once `mask` has made it. -/
theorem unmask_mask_iff (hbase : e.baseDir runtime = some base)
    (h : mask e fs n runtime force = (fs', .ok changes)) :
    ∃ fs'' changes', unmask e fs' n runtime = (fs'', .ok changes') ∧
      ¬ MaskAt fs'' (joinPath base n.filename) ∧
      unmask e fs'' n runtime = (fs'', .ok {}) ∧
      (Undone fs fs'' ↔ occupied (fs.createDirAll base).1 (joinPath base n.filename) = false ∨
        force = false ∧ ¬ MaskAt (fs.createDirAll base).1 (joinPath base n.filename)) := by
  simp only [(undone_createDirAll fs base).congr]
  obtain ⟨hocc, rfl, rfl⟩ | ⟨hput, hsym⟩ := mask_cases_in hbase h
  · -- `mask` left what it found
    by_cases hmask : MaskAt (fs.createDirAll base).1 (joinPath base n.filename)
    · obtain ⟨fs'', changes', d, name, hun, hplace, -, hnone, hsame, hleft⟩ :=
        unmask_of_maskAt hbase hmask
      refine ⟨fs'', changes', hun, hleft, unmask_of_not_maskAt hbase hleft, ?_⟩
      obtain ⟨d', name', t, hplace', hnode, -⟩ := hmask.node
      obtain ⟨rfl, rfl⟩ := Prod.mk.inj (Option.some.inj (hplace.symm.trans hplace'))
      rw [undone_iff_of_none hnone hsame (by simp [hnode]), hnode]
      simp [hocc, hmask]
    · refine ⟨_, _, unmask_of_not_maskAt hbase hmask, hmask, unmask_of_not_maskAt hbase hmask, ?_⟩
      exact iff_of_true (fun _ _ _ => Iff.rfl) (Or.inr ⟨rfl, hmask⟩)
  · -- `mask` put the link, and `unmask` removes it
    obtain ⟨d, name, hplace, hfree, hext, hnode, hsame⟩ := FileSystem.symlink_spec hsym
    obtain ⟨hplaceg, hdir, hsameg⟩ := tryRemove_spec hplace hfree
    have hnull : isDevNull devNull = true := by decide
    have hmask := maskAt_of_node (FileSystem.place_mono hext hplace) hnode hnull
    obtain ⟨fs'', changes', d', name', hun, hplace', -, hnone, hsame', hleft⟩ :=
      unmask_of_maskAt hbase hmask
    obtain ⟨rfl, rfl⟩ := Prod.mk.inj (Option.some.inj
      (hplace'.symm.trans (FileSystem.place_mono hext hplace)))
    refine ⟨fs'', changes', hun, hleft, unmask_of_not_maskAt hbase hleft, ?_⟩
    have hall : ∀ q, q ≠ d' ++ [name'] → fs''.node? q = (fs.createDirAll base).1.node? q :=
      fun q hq => ((hsame' q hq).trans (hsame q hq)).trans (hsameg q hq)
    have hocc : occupied (fs.createDirAll base).1 (joinPath base n.filename) = true ↔ _ :=
      FileSystem.exists_or_symlink_of_place hplaceg (FileSystem.plain_name hnode)
    rw [undone_iff_of_none hnone hall hdir, ← Bool.not_eq_true, hocc, not_not]
    refine ⟨Or.inl, fun hor => hor.elim id fun hboth => ?_⟩
    -- without `force` it put the link where nothing stood
    have hempty := hput.resolve_left (by simp [hboth.1])
    rw [← Bool.not_eq_true, hocc, not_not] at hempty
    exact hempty

theorem unmask_mask_hello : ∃ fs'' changes',
    unmask configC (mask configC devTree hello false false).1 hello false = (fs'', .ok changes') ∧
      ¬ MaskAt fs'' (joinPath userC hello.filename) ∧
      unmask configC fs'' hello false = (fs'', .ok {}) ∧
      (Undone devTree fs'' ↔
        occupied (devTree.createDirAll userC).1 (joinPath userC hello.filename) = false ∨
          false = false ∧ ¬ MaskAt (devTree.createDirAll userC).1 (joinPath userC hello.filename)) := by
  have hbase : configC.baseDir false = some userC := by decide +kernel
  have hok : mask configC devTree hello false false =
      ((mask configC devTree hello false false).1, .ok ⟨false,
        [⟨"symlink", joinPath userC hello.filename, devNull⟩]⟩) :=
    Prod.ext rfl (by decide +kernel)
  exact unmask_mask_iff hbase hok

end Systeml.Runtime
