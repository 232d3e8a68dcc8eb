import Systeml.Runtime.Install

/-!
# `disable` after `enable`

`disable` looks for links in two places: the configuration directory itself, under the
name of the unit, and its `.wants`, `.requires` and `.upholds` directories (`Found`). So it
undoes `enable` exactly when every link that `enable` makes is put into one of them, and
nothing that was there before stands in one (`undone_iff`).
-/

namespace Systeml.Runtime

open Systeml.Lib Systeml.Unit

/-- The places where `disable` looks, in the configuration directory at `b`. -/
def Found (want : Str) (b p : Loc) : Prop :=
  p = b ++ [want] ∨ ∃ dirName, isInstallDir dirName = true ∧ p = b ++ [dirName] ++ [want]

/-- If a link has to be made, it is put where `disable` looks. -/
def LinkFound (base want : Str) (fs : FileSystem) (r : Str × Str) : Prop :=
  ∀ g d b, fs.createDirAll r.1 = (g, some d) → g.canonicalize base = some b →
    occupied g (joinPath r.1 r.2) = false → Found want b (d ++ [r.2])

/-- This holds of each link, in the state in which it is made. -/
def LinksFound (base want source : Str) : FileSystem → List (Str × Str) → Prop
  | _, [] => True
  | fs, r :: rs => LinkFound base want fs r ∧
      ∀ made, (linkOne fs r.1 r.2 source false).2 = .ok made →
        LinksFound base want source (linkOne fs r.1 r.2 source false).1 rs

/-- No target has a link for the unit. -/
def NoInstallLinks (fs : FileSystem) (base want : Str) : Prop :=
  ∀ dirName, PlainName dirName → isInstallDir dirName = true →
    occupied fs (joinPath (joinPath base dirName) want) = false

/-- Every file and symbolic link is as before. -/
def Undone (fs fs' : FileSystem) : Prop :=
  ∀ p x, x ≠ .dir → (fs'.node? p = some x ↔ fs.node? p = some x)

/-- The configuration directory is there, or its path has no `..`. -/
def BaseClear (fs : FileSystem) (base : Str) : Prop :=
  (∃ b, fs.canonicalize base = some b) ∨ ['.', '.'] ∉ components base

/-- No name holds a separator. -/
def NamesPlain (n : UnitName) (i : Install) : Prop :=
  '/' ∉ n.filename ∧
    ∀ t ∈ i.wantedBy ++ i.requiredBy ++ i.upheldBy ++ i.aliases, '/' ∉ t.filename

/-! ## Removing -/

/-- What stands there when `disable` removes it. -/
def Removable (want : Str) (b p : Loc) (x : Node) : Prop :=
  x ≠ .dir ∧ ((p = b ++ [want] ∧ ∃ t, x = .symlink t) ∨
    ∃ dirName, isInstallDir dirName = true ∧ p = b ++ [dirName] ++ [want])

/-- From one state to a later one only such things have gone. -/
structure Removes (want : Str) (b : Loc) (g g' : FileSystem) : Prop where
  ext : FileSystem.Extends g' g
  gone : ∀ {p x}, g.node? p = some x → g'.node? p = none → Removable want b p x

variable {want base : Str} {b : Loc} {F g g' : FileSystem}

theorem Removes.refl (want : Str) (b : Loc) (g : FileSystem) : Removes want b g g where
  ext := .refl g
  gone := by
    intro p x hx hnone
    rw [hx] at hnone
    exact absurd hnone (by simp)

theorem Removes.trans {g'' : FileSystem} (h : Removes want b g g') (h' : Removes want b g' g'') :
    Removes want b g g'' where
  ext := h'.ext.trans h.ext
  gone := by
    intro p x hx hnone
    cases hy : g'.node? p with
    | none => exact h.gone hx hy
    | some y =>
      have hxy := h.ext.node hy
      rw [hx] at hxy
      obtain rfl := Option.some.inj hxy
      exact h'.gone hy hnone

/-- What a removal leaves alone. -/
theorem Removes.kept (h : Removes want b g g') {p : Loc} {x : Node} (hx : g.node? p = some x)
    (hkeep : ¬ Removable want b p x) : g'.node? p = some x := by
  cases hy : g'.node? p with
  | none => exact absurd (h.gone hx hy) hkeep
  | some y =>
    have hxy := h.ext.node hy
    rw [hx] at hxy
    rw [Option.some.inj hxy]

theorem tryRemove_removes {p : Str} (h : ∀ d name x, g.place p = some (d, name) →
    g.node? (d ++ [name]) = some x → x ≠ .dir → Removable want b (d ++ [name]) x) :
    Removes want b g (tryRemove g p) := by
  unfold tryRemove
  cases hr : g.removeFile p with
  | none => exact .refl want b g
  | some g' =>
    obtain ⟨d, name, hplace, hdir, hext, -, hother⟩ := FileSystem.removeFile_spec hr
    refine ⟨hext, ?_⟩
    intro q x hx hnone
    by_cases hq : q = d ++ [name]
    · subst hq
      exact h d name x hplace hx fun he => hdir (he ▸ hx)
    · rw [Option.getD_some, hother q hq, hx] at hnone
      exact absurd hnone (by simp)

theorem tryRemove_clears {d : Loc} {name : Str} {p : Str} {x : Node}
    (hplace : g.place p = some (d, name)) (hx : x ≠ .dir) :
    (tryRemove g p).node? (d ++ [name]) ≠ some x := by
  intro h
  cases hr : g.removeFile p with
  | none =>
    rw [tryRemove, hr, Option.getD_none] at h
    obtain ⟨g', hg'⟩ := FileSystem.removeFile_isSome hplace h hx
    rw [hr] at hg'
    exact absurd hg' (by simp)
  | some g' =>
    obtain ⟨d', name', hplace', -, -, hnone, -⟩ := FileSystem.removeFile_spec hr
    rw [hplace] at hplace'
    obtain ⟨rfl, rfl⟩ := Prod.mk.inj (Option.some.inj hplace')
    rw [tryRemove, hr, Option.getD_some, hnone] at h
    exact absurd h (by simp)

/-! ## One entry -/

theorem occupied_join {dir f : Str} (hf : PlainName f) : occupied g (joinPath dir f) = true ↔
    ∃ d x, g.canonicalize dir = some d ∧ g.node? (d ++ [f]) = some x :=
  FileSystem.exists_or_symlink_join hf

theorem canonicalize_dir {dirName : Str} (hb : g.canonicalize base = some b)
    (hdir : g.node? (b ++ [dirName]) = some .dir) :
    g.canonicalize (joinPath base dirName) = some (b ++ [dirName]) := by
  rw [FileSystem.canonicalize_join (FileSystem.plain_name hdir), hb, Option.bind_some]
  exact FileSystem.step_plain hdir (by simp)

/-- What the step at one entry removes. -/
theorem disableEntry_removes {entry : Str × Node} (hw : PlainName want)
    (hb : F.canonicalize base = some b) (hg : FileSystem.Extends g F)
    (he : F.node? (b ++ [entry.1]) = some entry.2) :
    Removes want b g (disableEntry base want g entry).1 := by
  obtain ⟨e, x⟩ := entry
  unfold disableEntry
  cases x with
  | file _ => exact .refl want b g
  | device => exact .refl want b g
  | dir =>
    simp only
    split
    next h =>
      obtain ⟨hinstall, -⟩ := Bool.and_eq_true_iff.mp h
      refine tryRemove_removes ?_
      intro d name x hplace hx hdir
      have hplaceF := FileSystem.place_mono hg hplace
      rw [FileSystem.place_join hw, canonicalize_dir hb he] at hplaceF
      obtain ⟨rfl, rfl⟩ := Prod.mk.inj (Option.some.inj hplaceF)
      exact ⟨hdir, Or.inr ⟨e, hinstall, rfl⟩⟩
    next => exact .refl want b g
  | symlink t =>
    simp only
    split
    next hname =>
      subst hname
      refine tryRemove_removes ?_
      intro d name x hplace hx hdir
      have hplaceF := FileSystem.place_mono hg hplace
      rw [FileSystem.place_join hw, hb] at hplaceF
      obtain ⟨rfl, rfl⟩ := Prod.mk.inj (Option.some.inj hplaceF)
      have hxt := hg.node hx
      rw [he] at hxt
      exact ⟨hdir, Or.inl ⟨rfl, t, (Option.some.inj hxt).symm⟩⟩
    next => exact .refl want b g

/-- All of them. -/
theorem disableAll_removes (hw : PlainName want) (hb : F.canonicalize base = some b) :
    ∀ {entries : List (Str × Node)} {g : FileSystem}, FileSystem.Extends g F →
    (∀ entry ∈ entries, F.node? (b ++ [entry.1]) = some entry.2) →
    Removes want b g (disableAll base want g entries).1
  | [], g, _, _ => .refl want b g
  | entry :: entries, g, hg, he => by
    obtain ⟨hentry, hrest⟩ := List.forall_mem_cons.mp he
    have hone := disableEntry_removes hw hb hg hentry
    exact hone.trans (disableAll_removes hw hb (hone.ext.trans hg) hrest)

/-- An entry that is there when it is reached is cleared. -/
theorem disableEntry_clears {entry : Str × Node} (hw : PlainName want)
    (hb : g.canonicalize base = some b) (hdir : entry.2 = .dir →
      g.node? (b ++ [entry.1]) = some .dir) {x : Node} (hx : x ≠ .dir) :
    (entry.2 = .dir → isInstallDir entry.1 = true →
      (disableEntry base want g entry).1.node? (b ++ [entry.1] ++ [want]) ≠ some x) ∧
    (∀ t, entry.2 = .symlink t → entry.1 = want →
      (disableEntry base want g entry).1.node? (b ++ [want]) ≠ some x) := by
  obtain ⟨e, y⟩ := entry
  constructor
  · intro hy hinstall
    have hd := hdir hy
    simp only at hy hd hinstall
    subst hy
    have hplace : g.place (joinPath (joinPath base e) want) = some (b ++ [e], want) := by
      rw [FileSystem.place_join hw, canonicalize_dir hb hd]
      rfl
    unfold disableEntry
    simp only [hinstall, Bool.true_and]
    split
    next => exact tryRemove_clears hplace hx
    next hocc =>
      intro hnode
      refine hocc ((occupied_join hw).mpr ?_)
      exact ⟨b ++ [e], x, canonicalize_dir hb hd, hnode⟩
  · intro t hy hname
    simp only at hy hname
    subst hy hname
    have hplace : g.place (joinPath base e) = some (b, e) := by
      rw [FileSystem.place_join hw, hb]
      rfl
    unfold disableEntry
    simp only [if_true]
    exact tryRemove_clears hplace hx

/-- Whatever stands where `disable` looks is gone, if the directory is found to the end. -/
theorem disableAll_clears (hw : PlainName want) (hbF : F.canonicalize base = some b)
    {x : Node} (hx : x ≠ .dir) : ∀ {entries : List (Str × Node)} {g : FileSystem},
    Removes want b F g → (∀ entry ∈ entries, F.node? (b ++ [entry.1]) = some entry.2) →
    (disableAll base want g entries).1.canonicalize base = some b →
    (∀ e, (e, Node.dir) ∈ entries → isInstallDir e = true →
      (disableAll base want g entries).1.node? (b ++ [e] ++ [want]) ≠ some x) ∧
    (∀ t, (want, Node.symlink t) ∈ entries →
      (disableAll base want g entries).1.node? (b ++ [want]) ≠ some x)
  | [], _, _, _, _ =>
    ⟨fun _ he _ => absurd he List.not_mem_nil, fun _ ht => absurd ht List.not_mem_nil⟩
  | entry :: entries, g, hg, he, hlast => by
    obtain ⟨hentry, hrest⟩ := List.forall_mem_cons.mp he
    have hone := disableEntry_removes hw hbF hg.ext hentry
    have hall := disableAll_removes hw hbF (hone.ext.trans hg.ext) hrest
    have hb : g.canonicalize base = some b :=
      FileSystem.canonicalize_mono (hall.ext.trans hone.ext) hlast
    have hdir : entry.2 = .dir → g.node? (b ++ [entry.1]) = some .dir := by
      intro hd
      rw [hd] at hentry
      exact hg.kept hentry fun h => h.1 rfl
    obtain ⟨hcleardir, hclearlink⟩ := disableEntry_clears (x := x) hw hb hdir hx
    obtain ⟨hrestdir, hrestlink⟩ := disableAll_clears hw hbF hx (hg.trans hone) hrest hlast
    constructor
    · intro e hmem hinstall
      cases List.mem_cons.mp hmem with
      | inl heq =>
        subst heq
        exact fun hnode => hcleardir rfl hinstall (hall.ext.node hnode)
      | inr hmem => exact hrestdir e hmem hinstall
    · intro t hmem
      cases List.mem_cons.mp hmem with
      | inl heq =>
        subst heq
        exact fun hnode => hclearlink t rfl rfl (hall.ext.node hnode)
      | inr hmem => exact hrestlink t hmem

/-! ## Making links -/

section Links

variable {source : Str} {fs k : FileSystem} {r : Str × Str}

/-- A request of `enable`: a plain name in the configuration directory or directly below. -/
structure BaseRequest (base : Str) (r : Str × Str) : Prop where
  name : PlainName r.2
  dir : r.1 = base ∨ ∃ dirName, PlainName dirName ∧ r.1 = joinPath base dirName

/-- What `link_one` does without force. -/
theorem linkOne_cases (fs : FileSystem) (source : Str) (hname : PlainName r.2) :
    (∃ g, fs.createDirAll r.1 = (g, none) ∧
      linkOne fs r.1 r.2 source false = (g, .error (.mkdir r.1))) ∨
    (∃ g d, fs.createDirAll r.1 = (g, some d) ∧ occupied g (joinPath r.1 r.2) = true ∧
      linkOne fs r.1 r.2 source false = (g, .ok [])) ∨
    ∃ g d g', fs.createDirAll r.1 = (g, some d) ∧ occupied g (joinPath r.1 r.2) = false ∧
      g.node? (d ++ [r.2]) = none ∧ FileSystem.Extends g g' ∧
      g'.node? (d ++ [r.2]) = some (.symlink source) ∧
      (∀ q, q ≠ d ++ [r.2] → g'.node? q = g.node? q) ∧
      linkOne fs r.1 r.2 source false =
        (g', .ok [⟨"symlink", joinPath r.1 r.2, source⟩]) := by
  obtain ⟨-, -, hmade⟩ := FileSystem.createDirAll_spec fs r.1
  cases hc : fs.createDirAll r.1 with
  | mk g o =>
    rw [hc] at hmade
    cases o with
    | none => exact Or.inl ⟨g, rfl, by simp only [linkOne, hc]⟩
    | some d =>
      obtain ⟨hd, hdir⟩ : g.canonicalize r.1 = some d ∧ g.node? d = some .dir := hmade d rfl
      refine Or.inr ?_
      cases hocc : occupied g (joinPath r.1 r.2) with
      | true =>
        refine Or.inl ⟨g, d, rfl, hocc, ?_⟩
        simp [linkOne, hc, putLink, hocc]
      | false =>
        have hnone : g.node? (d ++ [r.2]) = none := by
          cases hx : g.node? (d ++ [r.2]) with
          | none => rfl
          | some x =>
            have htrue : occupied g (joinPath r.1 r.2) = true := occupied_join hname |>.mpr ⟨d, x, hd, hx⟩
            rw [hocc] at htrue
            exact absurd htrue Bool.false_ne_true
        have hplace : g.place (joinPath r.1 r.2) = some (d, r.2) := by
          rw [FileSystem.place_join hname, hd]
          rfl
        have hfree : g.Free d r.2 := ⟨hdir, hname, hnone⟩
        have hlink : g.symlink source (joinPath r.1 r.2) =
            some (g.add d r.2 (.symlink source) hfree) := by
          unfold FileSystem.symlink
          rw [hplace]
          exact dif_pos hfree
        refine Or.inr ⟨g, d, g.add d r.2 (.symlink source) hfree, rfl, hocc, hnone,
          FileSystem.extends_add hfree, FileSystem.node?_add_self hfree,
          fun q hq => FileSystem.node?_add_ne hfree hq, ?_⟩
        simp [linkOne, hc, putLink, hocc, report, hlink]

theorem linkOne_extends (fs : FileSystem) (source : Str) (hname : PlainName r.2) :
    FileSystem.Extends fs (linkOne fs r.1 r.2 source false).1 := by
  have hext := (FileSystem.createDirAll_spec fs r.1).1
  obtain ⟨g, hc, heq⟩ | ⟨g, d, hc, -, heq⟩ | ⟨g, d, g', hc, -, -, hg, -, -, heq⟩ :=
    linkOne_cases fs source hname
  · rw [heq]
    rwa [hc] at hext
  · rw [heq]
    rwa [hc] at hext
  · rw [heq]
    rw [hc] at hext
    exact hext.trans hg

/-- The tree after the links: the later ones are made if this one does not fail. -/
theorem linkAll_tree {rs : List (Str × Str)} : (linkAll source false fs (r :: rs)).1 =
    match (linkOne fs r.1 r.2 source false).2 with
    | .error _ => (linkOne fs r.1 r.2 source false).1
    | .ok _ => (linkAll source false (linkOne fs r.1 r.2 source false).1 rs).1 := by
  conv_lhs => unfold linkAll
  cases h : linkOne fs r.1 r.2 source false with
  | mk g o =>
    cases o with
    | error e => rfl
    | ok made =>
      simp only
      cases linkAll source false g rs with
      | mk g' o' => cases o' <;> rfl

theorem linkAll_extends (source : Str) : ∀ {rs : List (Str × Str)} (fs : FileSystem),
    (∀ r ∈ rs, BaseRequest base r) → FileSystem.Extends fs (linkAll source false fs rs).1
  | [], fs, _ => .refl fs
  | r :: rs, fs, h => by
    obtain ⟨hr, hrs⟩ := List.forall_mem_cons.mp h
    have hone := linkOne_extends fs source hr.name
    rw [linkAll_tree]
    split
    next => exact hone
    next => exact hone.trans (linkAll_extends source _ hrs)

/-- Where a directory has been made, the configuration directory is there. -/
theorem base_made {d : Loc} (hr : BaseRequest base r) (h : fs.createDirAll r.1 = (g, some d)) :
    ∃ b, g.canonicalize base = some b := by
  have hmade := (FileSystem.createDirAll_spec fs r.1).2.2
  rw [h] at hmade
  obtain ⟨hd, -⟩ := hmade d rfl
  cases hr.dir with
  | inl he => exact ⟨d, he ▸ hd⟩
  | inr hdir =>
    obtain ⟨dirName, hplain, he⟩ := hdir
    rw [he, FileSystem.canonicalize_join hplain] at hd
    obtain ⟨b, hb, -⟩ := Option.bind_eq_some_iff.mp hd
    exact ⟨b, hb⟩

/-- It was there before, or it is new. -/
theorem base_settled {d : Loc} (hclear : BaseClear fs base) (hr : BaseRequest base r)
    (h : fs.createDirAll r.1 = (g, some d)) (hb : g.canonicalize base = some b) :
    fs.canonicalize base = some b ∨ fs.node? b = none := by
  have hext := (FileSystem.createDirAll_spec fs r.1).1
  rw [h] at hext
  refine hclear.elim (fun hold => ?_) fun hdots => ?_
  · obtain ⟨b', hb'⟩ := hold
    have he := FileSystem.canonicalize_mono hext hb'
    rw [hb] at he
    exact Or.inl (Option.some.inj he ▸ hb')
  have hone : ∀ {g' e}, fs.createDirAll base = (g', some e) → FileSystem.Extends g' g →
      fs.canonicalize base = some b ∨ fs.node? b = none := by
    intro g' e hmade hext
    have hspec := (FileSystem.createDirAll_spec fs base).2.2
    rw [hmade] at hspec
    have he := FileSystem.canonicalize_mono hext (hspec e rfl).1
    rw [hb] at he
    obtain rfl := Option.some.inj he
    exact FileSystem.makeDirs_settled hdots (congrArg Prod.snd hmade)
  cases hr.dir with
  | inl he => exact hone (he ▸ h) (.refl g)
  | inr hdir =>
    obtain ⟨dirName, hplain, he⟩ := hdir
    have hpath : fs.createDirAll r.1 =
        fs.makeDirs (FileSystem.startOf fs.cwd base) (components base ++ [dirName]) := by
      rw [he, FileSystem.createDirAll, FileSystem.startOf_join hplain, components_joinPath hplain]
    obtain ⟨g', e, hfirst, hrest⟩ := FileSystem.makeDirs_append
      (congrArg Prod.snd (hpath.symm.trans h))
    refine hone hfirst ?_
    have hext := (FileSystem.makeDirs_spec [dirName] g' e).1
    rwa [← hrest, ← hpath, h] at hext

/-- If the first directory cannot be made, nothing is. -/
theorem base_none (hclear : BaseClear fs base) (hr : BaseRequest base r)
    (h : fs.createDirAll r.1 = (g, none)) : g = fs := by
  refine hclear.elim (fun hold => ?_) fun hdots => ?_
  · obtain ⟨b, hb⟩ := hold
    obtain ⟨cs, hcs, hpath⟩ : ∃ cs, (∀ c ∈ cs, PlainName c) ∧
        fs.createDirAll r.1 = fs.makeDirs b cs := by
      cases hr.dir with
      | inl he =>
        refine ⟨[], fun c hc => absurd hc List.not_mem_nil, ?_⟩
        rw [he, ← FileSystem.makeDirs_of_walk hb, List.append_nil]
        rfl
      | inr hdir =>
        obtain ⟨dirName, hdirName, he⟩ := hdir
        refine ⟨[dirName], fun c hc => List.mem_singleton.mp hc ▸ hdirName, ?_⟩
        rw [he, FileSystem.createDirAll, FileSystem.startOf_join hdirName,
          components_joinPath hdirName]
        exact FileSystem.makeDirs_of_walk hb
    have hnone : (fs.makeDirs b cs).1 = fs := FileSystem.makeDirs_none hcs
      (congrArg Prod.snd (hpath.symm.trans h))
    exact (congrArg Prod.fst (hpath.symm.trans h)).symm.trans hnone
  have hplain : ∀ c ∈ components base, PlainName c := fun c hc =>
    FileSystem.plain_of_components hc fun he => hdots (he ▸ hc)
  have hnames : ∀ c ∈ components r.1, PlainName c := by
    cases hr.dir with
    | inl he => rwa [he]
    | inr hdir =>
      obtain ⟨dirName, hdirName, he⟩ := hdir
      rw [he, components_joinPath hdirName]
      intro c hc
      cases List.mem_append.mp hc with
      | inl hc => exact hplain c hc
      | inr hc => exact List.mem_singleton.mp hc ▸ hdirName
  have hnone : (fs.makeDirs (FileSystem.startOf fs.cwd r.1) (components r.1)).1 = fs :=
    FileSystem.makeDirs_none hnames (congrArg Prod.snd h)
  exact (congrArg Prod.fst h).symm.trans hnone

/-! ## What `enable` leaves -/

/-- The links that are made from a tree in which the configuration directory is there. -/
theorem linkAll_found (hb : k.canonicalize base = some b) : ∀ {rs : List (Str × Str)}
    {g : FileSystem}, FileSystem.Extends k g → (∀ r ∈ rs, BaseRequest base r) →
    LinksFound base want source g rs → ∀ {p x}, (linkAll source false g rs).1.node? p = some x →
    x ≠ .dir → g.node? p = some x ∨ (Found want b p ∧ x = .symlink source)
  | [], g, _, _, _, p, x, hx, _ => Or.inl hx
  | r :: rs, g, hk, hreqs, hfound, p, x, hx, hdir => by
    obtain ⟨hr, hrs⟩ := List.forall_mem_cons.mp hreqs
    obtain ⟨hone, hrest⟩ := hfound
    -- what this link adds
    have hstep : ∀ {p x}, (linkOne g r.1 r.2 source false).1.node? p = some x → x ≠ .dir →
        g.node? p = some x ∨ (Found want b p ∧ x = .symlink source) := by
      intro p x hx hdir
      obtain ⟨hext, hdirs, -⟩ := FileSystem.createDirAll_spec g r.1
      have hold : ∀ {g₁ o}, g.createDirAll r.1 = (g₁, o) → g₁.node? p = some x →
          g.node? p = some x := by
        intro g₁ o hc hx
        rw [hc] at hdirs
        exact (hdirs hx).resolve_right hdir
      obtain ⟨g₁, hc, heq⟩ | ⟨g₁, d, hc, -, heq⟩ | ⟨g₁, d, g₂, hc, hocc, -, -, hself, hother, heq⟩ :=
        linkOne_cases g source hr.name
      · rw [heq] at hx
        exact Or.inl (hold hc hx)
      · rw [heq] at hx
        exact Or.inl (hold hc hx)
      · rw [heq] at hx
        by_cases hp : p = d ++ [r.2]
        · subst hp
          rw [hself] at hx
          rw [hc] at hext
          have hb₁ := FileSystem.canonicalize_mono (hk.trans hext) hb
          exact Or.inr ⟨hone g₁ d b hc hb₁ hocc, (Option.some.inj hx).symm⟩
        · rw [hother p hp] at hx
          exact Or.inl (hold hc hx)
    rw [linkAll_tree] at hx
    split at hx
    next => exact hstep hx hdir
    next made hmade =>
      have hext := linkOne_extends g source hr.name
      cases linkAll_found hb (hk.trans hext) hrs (hrest made hmade) hx hdir with
      | inl hx => exact hstep hx hdir
      | inr hf => exact Or.inr hf

/-- What is known of the tree after `enable`, if its links are found: the configuration
directory was there or is new, and files and links are old, or links that are found. -/
structure Enabled (base want : Str) (fs F : FileSystem) : Prop where
  ext : FileSystem.Extends fs F
  /-- The directories that lead to the configuration directory stay, whatever links go. -/
  core : ∀ {b}, F.canonicalize base = some b → ∃ k, FileSystem.Extends k F ∧
    FileSystem.Extends fs k ∧ FileSystem.OnlyDirs fs k ∧ k.canonicalize base = some b ∧
    (fs.canonicalize base = some b ∨ fs.node? b = none)
  links : ∀ {p x}, F.node? p = some x → x ≠ .dir → fs.node? p = some x ∨
    ∃ b t, F.canonicalize base = some b ∧ Found want b p ∧ x = .symlink t

theorem Enabled.refl (base want : Str) (fs : FileSystem) : Enabled base want fs fs where
  ext := .refl fs
  core := fun hb => ⟨fs, .refl fs, .refl fs, fun hx => Or.inl hx, hb, Or.inl hb⟩
  links := fun hx _ => Or.inl hx

theorem linkAll_enabled {rs : List (Str × Str)} (hclear : BaseClear fs base)
    (hreqs : ∀ r ∈ rs, BaseRequest base r) (hfound : LinksFound base want source fs rs) :
    Enabled base want fs (linkAll source false fs rs).1 := by
  cases rs with
  | nil => exact .refl base want fs
  | cons r rs =>
    have hr := hreqs r List.mem_cons_self
    obtain ⟨hext, hdirs, -⟩ := FileSystem.createDirAll_spec fs r.1
    cases hc : fs.createDirAll r.1 with
    | mk k o =>
      rw [hc] at hext hdirs
      cases o with
      | none =>
        obtain rfl := base_none hclear hr hc
        have hone : linkOne k r.1 r.2 source false = (k, .error (.mkdir r.1)) := by
          simp only [linkOne, hc]
        rw [linkAll_tree, hone]
        exact .refl base want k
      | some d =>
        -- nothing changes if the directory is made beforehand
        have hagain := FileSystem.createDirAll_again hc
        have hone : linkOne fs r.1 r.2 source false = linkOne k r.1 r.2 source false := by
          simp only [linkOne, hc, hagain]
        have htree : (linkAll source false fs (r :: rs)).1 =
            (linkAll source false k (r :: rs)).1 := by
          rw [linkAll_tree, linkAll_tree, hone]
        have hfoundk : LinksFound base want source k (r :: rs) := by
          obtain ⟨hlink, hrest⟩ := hfound
          rw [hone] at hrest
          refine ⟨?_, hrest⟩
          intro g d' b hg
          exact hlink g d' b (hc.trans (hagain.symm.trans hg))
        obtain ⟨b, hb⟩ := base_made hr hc
        have hF := linkAll_extends source k hreqs
        have hbF := FileSystem.canonicalize_mono hF hb
        rw [htree]
        refine ⟨hext.trans hF, ?_, ?_⟩
        · intro b' hb'
          rw [hbF] at hb'
          obtain rfl := Option.some.inj hb'
          exact ⟨k, hF, hext, hdirs, hb, base_settled hclear hr hc hb⟩
        · intro p x hx hdir
          cases linkAll_found hb (.refl k) hreqs hfoundk hx hdir with
          | inl hx => exact Or.inl ((hdirs hx).resolve_right hdir)
          | inr hf => exact Or.inr ⟨b, source, hbF, hf⟩

/-- If every new link stands where `disable` looks, each was put there. -/
theorem linksFound_of : ∀ {rs : List (Str × Str)} {g : FileSystem},
    (∀ r ∈ rs, BaseRequest base r) →
    (∀ {p x b}, (linkAll source false g rs).1.node? p = some x → x ≠ .dir → g.node? p = none →
      (linkAll source false g rs).1.canonicalize base = some b → Found want b p) →
    LinksFound base want source g rs
  | [], _, _, _ => trivial
  | r :: rs, g, hreqs, hall => by
    obtain ⟨hr, hrs⟩ := List.forall_mem_cons.mp hreqs
    rw [linkAll_tree] at hall
    constructor
    · intro g₁ d b hc hb hocc
      have hext := (FileSystem.createDirAll_spec g r.1).1
      rw [hc] at hext
      obtain ⟨g₂, hc', -⟩ | ⟨g₂, d', hc', hocc', -⟩ |
          ⟨g₂, d', g₃, hc', -, hnone, hext', hself, -, heq⟩ :=
        linkOne_cases g source hr.name
      · exact absurd (hc.symm.trans hc') (by simp)
      · obtain ⟨rfl, -⟩ := Prod.mk.inj (hc.symm.trans hc')
        rw [hocc] at hocc'
        exact absurd hocc' Bool.false_ne_true
      · obtain ⟨rfl, he⟩ := Prod.mk.inj (hc.symm.trans hc')
        obtain rfl := Option.some.inj he
        rw [heq] at hall
        have hlater := linkAll_extends source g₃ hrs
        refine hall (hlater.node hself) (by simp) ?_
          (FileSystem.canonicalize_mono (hext'.trans hlater) hb)
        cases hx : g.node? (d ++ [r.2]) with
        | none => rfl
        | some x =>
          rw [hext.node hx] at hnone
          exact absurd hnone (by simp)
    · intro made hmade
      rw [hmade] at hall
      refine linksFound_of hrs ?_
      intro p x b hx hdir hnone hb
      refine hall hx hdir ?_ hb
      cases hy : g.node? p with
      | none => rfl
      | some y =>
        rw [(linkOne_extends _ source hr.name).node hy] at hnone
        exact absurd hnone (by simp)

end Links

/-! ## The result -/

section Result

variable {e : Env} {fs : FileSystem} {n : UnitName} {i : Install} {runtime : Bool}

theorem requests_base (h : NamesPlain n i) : ∀ r ∈ requests base n i, BaseRequest base r := by
  obtain ⟨hn, ht⟩ := h
  have hname := plainName_filename hn
  have hdir : ∀ {t : UnitName} {suffix : String}, '/' ∉ suffix.toList →
      t ∈ i.wantedBy ++ i.requiredBy ++ i.upheldBy ++ i.aliases →
      BaseRequest base (targetDir base suffix t, n.filename) := by
    intro t suffix hsuffix hmem
    have hlen := filename_length t
    refine ⟨hname, Or.inr ⟨_, plainName_of_length ?_ ?_, rfl⟩⟩
    · intro hslash
      cases List.mem_append.mp hslash with
      | inl hslash => exact ht t hmem hslash
      | inr hslash => exact hsuffix hslash
    · rw [List.length_append]
      omega
  intro r hr
  simp only [requests, List.mem_append, List.mem_map] at hr
  obtain ((⟨t, hmem, rfl⟩ | ⟨t, hmem, rfl⟩) | ⟨t, hmem, rfl⟩) | ⟨a, hmem, rfl⟩ := hr
  · exact hdir (by decide) (by simp [hmem])
  · exact hdir (by decide) (by simp [hmem])
  · exact hdir (by decide) (by simp [hmem])
  · exact ⟨plainName_filename (ht a (by simp [hmem])), Or.inl rfl⟩

theorem enable_tree (hbase : e.baseDir runtime = some base) :
    (enable e fs n i runtime false).1 = (linkAll ((locateFragment e fs n).getD n.filename) false
      fs (requests base n i)).1 := by
  unfold enable
  split
  next hempty =>
    simp only [Install.isEmpty, Bool.and_eq_true, List.isEmpty_iff] at hempty
    obtain ⟨⟨⟨⟨⟨hw, hr⟩, hu⟩, -⟩, ha⟩, -⟩ := hempty
    simp [requests, hw, hr, hu, ha, linkAll]
  next =>
    rw [hbase]
    simp only
    cases linkAll ((locateFragment e fs n).getD n.filename) false fs (requests base n i) with
    | mk g o => cases o <;> rfl

/-- The tree that `disable` leaves, if there is a configuration directory. -/
theorem disable_tree (hbase : e.baseDir runtime = some base) :
    ((∀ b, F.canonicalize base = some b → F.node? b ≠ some .dir) ∧
      (disable e F n runtime).1 = F) ∨
    ∃ b entries, F.canonicalize base = some b ∧
      (∀ name x, (name, x) ∈ entries ↔ F.node? (b ++ [name]) = some x) ∧
      (disable e F n runtime).1 = (disableAll base n.filename F entries).1 := by
  unfold disable
  rw [hbase]
  cases hread : F.readDir base with
  | none =>
    refine Or.inl ⟨?_, by simp only [hread]⟩
    intro b hb hdir
    unfold FileSystem.readDir at hread
    rw [hb] at hread
    simp only at hread
    rw [if_pos hdir] at hread
    exact absurd hread (by simp)
  | some entries =>
    obtain ⟨b, hb, -, hmem⟩ := FileSystem.readDir_spec hread
    exact Or.inr ⟨b, entries, hb, hmem, by simp only [hread]⟩

/-- The links of `enable` are where `disable` looks, and n's own entry is none. -/
structure FindsAll (e : Env) (fs : FileSystem) (n : UnitName) (i : Install) (base : Str) :
    Prop where
  own : fs.isSymlink (joinPath base n.filename) = false
  links : LinksFound base n.filename ((locateFragment e fs n).getD n.filename) fs
    (requests base n i)

theorem isSymlink_join {dir f : Str} (hf : PlainName f) {d : Loc}
    (hd : fs.canonicalize dir = some d) : fs.isSymlink (joinPath dir f) = true ↔
      ∃ t, fs.node? (d ++ [f]) = some (.symlink t) := by
  unfold FileSystem.isSymlink FileSystem.readLink
  rw [FileSystem.lstat_join hf, hd, Option.bind_some]
  cases fs.node? (d ++ [f]) with
  | none => simp
  | some x => cases x <;> simp

/-- What was there before is not removed. -/
theorem not_removable (hw : PlainName want)
    (hown : fs.isSymlink (joinPath base want) = false) (hlinks : NoInstallLinks fs base want)
    (hsettled : fs.canonicalize base = some b ∨ fs.node? b = none) {p : Loc} {x : Node}
    (hx : fs.node? p = some x) : ¬ Removable want b p x := by
  intro h
  have hresolved : fs.node? b = some .dir → fs.canonicalize base = some b := by
    intro hdir
    refine hsettled.resolve_right ?_
    rw [hdir]
    exact Option.some_ne_none _
  obtain ⟨-, ⟨rfl, t, rfl⟩ | ⟨dirName, hinstall, rfl⟩⟩ := h
  · have hb := hresolved (FileSystem.parent_dir hx)
    rw [(isSymlink_join hw hb).mpr ⟨t, hx⟩] at hown
    exact absurd hown (by simp)
  · have hdir := FileSystem.parent_dir hx
    have hb := hresolved (FileSystem.parent_dir hdir)
    have hocc := hlinks dirName (FileSystem.plain_name hdir) hinstall
    rw [(occupied_join hw).mpr ⟨_, x, canonicalize_dir hb hdir, hx⟩] at hocc
    exact absurd hocc (by simp)

/-- Under the condition `disable` takes away the links, and nothing else. -/
theorem undone_of_enabled (hbase : e.baseDir runtime = some base) (hw : PlainName n.filename)
    (hown : fs.isSymlink (joinPath base n.filename) = false)
    (hlinks : NoInstallLinks fs base n.filename) (h : Enabled base n.filename fs F) :
    Undone fs (disable e F n runtime).1 := by
  obtain ⟨hnodir, htree⟩ | ⟨b, entries, hb, hmem, htree⟩ :=
    disable_tree (e := e) (n := n) (F := F) hbase
  · -- no directory, so there are no links in it
    rw [htree]
    intro p x hx
    refine ⟨fun hp => ?_, fun hp => h.ext.node hp⟩
    cases h.links hp hx with
    | inl hold => exact hold
    | inr hlink =>
      obtain ⟨b, t, hb, hfound, -⟩ := hlink
      refine absurd ?_ (hnodir b hb)
      cases hfound with
      | inl he =>
        subst he
        exact FileSystem.parent_dir hp
      | inr hin =>
        obtain ⟨dirName, -, rfl⟩ := hin
        exact FileSystem.parent_dir (FileSystem.parent_dir hp)
  · obtain ⟨k, hkF, hfsk, hdirs, hbk, hsettled⟩ := h.core hb
    have hentries : ∀ entry ∈ entries, F.node? (b ++ [entry.1]) = some entry.2 :=
      fun entry he => (hmem entry.1 entry.2).mp he
    have hremoves := disableAll_removes hw hb (.refl F) hentries
    have hkeep : ∀ {p x}, k.node? p = some x →
        (disableAll base n.filename F entries).1.node? p = some x := by
      intro p x hx
      refine hremoves.kept (hkF.node hx) ?_
      by_cases hdir : x = .dir
      · exact fun hr => hr.1 hdir
      · exact not_removable hw hown hlinks hsettled ((hdirs hx).resolve_right hdir)
    have hlast := FileSystem.canonicalize_mono
      ⟨hremoves.ext.cwd.symm.trans hkF.cwd, hkeep⟩ hbk
    rw [htree]
    intro p x hx
    refine ⟨fun hp => ?_, fun hp => hkeep (hfsk.node hp)⟩
    have hpF := hremoves.ext.node hp
    obtain ⟨hcleardir, hclearlink⟩ :=
      disableAll_clears hw hb hx (.refl n.filename b F) hentries hlast
    cases h.links hpF hx with
    | inl hold => exact hold
    | inr hlink =>
      obtain ⟨b', t, hb', hfound, rfl⟩ := hlink
      rw [hb] at hb'
      obtain rfl := Option.some.inj hb'
      cases hfound with
      | inl he =>
        subst he
        exact absurd hp (hclearlink t ((hmem _ _).mpr hpF))
      | inr hin =>
        obtain ⟨dirName, hinstall, rfl⟩ := hin
        exact absurd hp
          (hcleardir dirName ((hmem _ _).mpr (FileSystem.parent_dir hpF)) hinstall)

/-- If all is undone, `disable` looked where the new links were, and found nothing old. -/
theorem found_of_undone (hbase : e.baseDir runtime = some base) (hw : PlainName n.filename)
    (hext : FileSystem.Extends fs F) (hundone : Undone fs (disable e F n runtime).1) :
    fs.isSymlink (joinPath base n.filename) = false ∧
      ∀ {p x b}, F.node? p = some x → x ≠ .dir → fs.node? p = none →
        F.canonicalize base = some b → Found n.filename b p := by
  -- an own entry that is a link is seen by `disable`
  have hseen : ∀ {b t}, fs.canonicalize base = some b →
      fs.node? (b ++ [n.filename]) = some (.symlink t) → False := by
    intro b t hb ht
    have hbF := FileSystem.canonicalize_mono hext hb
    obtain ⟨hnodir, -⟩ | ⟨b', entries, hb', hmem, htree⟩ :=
      disable_tree (e := e) (n := n) (F := F) hbase
    · exact hnodir b hbF (hext.node (FileSystem.parent_dir ht))
    · rw [hbF] at hb'
      obtain rfl := Option.some.inj hb'
      rw [htree] at hundone
      have hentries : ∀ entry ∈ entries, F.node? (b ++ [entry.1]) = some entry.2 :=
        fun entry he => (hmem entry.1 entry.2).mp he
      have hremoves := disableAll_removes hw hbF (.refl F) hentries
      have hkeep : ∀ {p x}, fs.node? p = some x →
          (disableAll base n.filename F entries).1.node? p = some x := by
        intro p x hx
        by_cases hdir : x = .dir
        · exact hremoves.kept (hext.node hx) fun hr => hr.1 hdir
        · exact (hundone p x hdir).mpr hx
      have hlast := FileSystem.canonicalize_mono
        ⟨hremoves.ext.cwd.symm.trans hext.cwd, hkeep⟩ hb
      obtain ⟨-, hclear⟩ := disableAll_clears (x := .symlink t) hw hbF (by simp)
        (.refl n.filename b F) hentries hlast
      exact hclear t ((hmem _ _).mpr (hext.node ht)) (hkeep ht)
  constructor
  · cases hsym : fs.isSymlink (joinPath base n.filename) with
    | false => rfl
    | true =>
      have hocc : occupied fs (joinPath base n.filename) = true := by
        rw [occupied, hsym, Bool.or_true]
      obtain ⟨b, x, hb, -⟩ := (occupied_join hw).mp hocc
      obtain ⟨t, ht⟩ := (isSymlink_join hw hb).mp hsym
      exact (hseen hb ht).elim
  · intro p x b hx hdir hnone hb
    have hgone : (disable e F n runtime).1.node? p ≠ some x := by
      intro hy
      have hold := (hundone p x hdir).mp hy
      rw [hnone] at hold
      exact absurd hold (by simp)
    obtain ⟨-, htree⟩ | ⟨b', entries, hb', hmem, htree⟩ :=
      disable_tree (e := e) (n := n) (F := F) hbase
    · rw [htree] at hgone
      exact absurd hx hgone
    · rw [hb] at hb'
      obtain rfl := Option.some.inj hb'
      rw [htree] at hgone
      have hremoves := disableAll_removes hw hb (.refl F)
        fun entry he => (hmem entry.1 entry.2).mp he
      have hnone' : (disableAll base n.filename F entries).1.node? p = none := by
        cases hy : (disableAll base n.filename F entries).1.node? p with
        | none => rfl
        | some y =>
          have hxy := hremoves.ext.node hy
          rw [hx] at hxy
          obtain rfl := Option.some.inj hxy
          exact absurd hy hgone
      obtain ⟨-, hplace⟩ := hremoves.gone hx hnone'
      exact hplace.imp_left And.left

/-- **`disable` undoes `enable` exactly when it looks where the links are.** -/
theorem undone_iff (hbase : e.baseDir runtime = some base)
    (hclear : BaseClear fs base) (hplain : NamesPlain n i)
    (hlinks : NoInstallLinks fs base n.filename) :
    Undone fs (disable e (enable e fs n i runtime false).1 n runtime).1 ↔
      FindsAll e fs n i base := by
  have hw := plainName_filename hplain.1
  have hreqs : ∀ r ∈ requests base n i, BaseRequest base r := requests_base hplain
  rw [enable_tree hbase]
  constructor
  · intro hundone
    obtain ⟨hown, hfound⟩ := found_of_undone hbase hw (linkAll_extends _ fs hreqs) hundone
    exact ⟨hown, linksFound_of hreqs hfound⟩
  · intro h
    exact undone_of_enabled hbase hw h.own hlinks (linkAll_enabled hclear hreqs h.links)

end Result

/-! ## A target and an alias -/

/-- A file system with nothing in it. -/
def emptyTree : FileSystem where
  nodes := .empty
  cwd := []
  closed := fun p hp => absurd hp (by simp)

/-- The configuration directory is `/c/systemd/user`. -/
def configC : Env := ⟨some "/c".toList, none, none⟩

def userC : Str := "/c/systemd/user".toList

def hello : UnitName := ⟨"hello".toList, none, .service⟩

theorem occupied_emptyTree {dir f : Str} (hf : PlainName f) :
    occupied emptyTree (joinPath dir f) = false := by
  cases h : occupied emptyTree (joinPath dir f) with
  | false => rfl
  | true =>
    obtain ⟨d, x, -, hx⟩ := (occupied_join hf).mp h
    rw [FileSystem.node?_snoc] at hx
    exact absurd hx (by simp [emptyTree])

theorem noInstallLinks_emptyTree : NoInstallLinks emptyTree userC hello.filename := by
  intro dirName _ _
  exact occupied_emptyTree (by decide +kernel)

/-- A unit that a target wants. -/
theorem undone_iff_example : Undone emptyTree (disable configC
    (enable configC emptyTree hello { wantedBy := [⟨"default".toList, none, .target⟩] } false
      false).1 hello false).1 := by
  have hbase : configC.baseDir false = some userC := by decide +kernel
  have hclear : BaseClear emptyTree userC := Or.inr (by decide +kernel)
  have hplain : NamesPlain hello { wantedBy := [⟨"default".toList, none, .target⟩] } :=
    ⟨by decide +kernel, by decide +kernel⟩
  refine (undone_iff hbase hclear hplain noInstallLinks_emptyTree).mpr ⟨by decide +kernel, ?_⟩
  have hdir : (emptyTree.createDirAll (targetDir userC ".wants" ⟨"default".toList, none,
      .target⟩)).2 = some ["c".toList, "systemd".toList, "user".toList,
        "default.target.wants".toList] := by decide +kernel
  have hb : (emptyTree.createDirAll (targetDir userC ".wants" ⟨"default".toList, none,
      .target⟩)).1.canonicalize userC = some ["c".toList, "systemd".toList, "user".toList] := by
    decide +kernel
  refine ⟨?_, fun _ _ => trivial⟩
  intro g d b hmade hcanon _
  rw [hmade] at hdir hb
  rw [hb] at hcanon
  obtain rfl := Option.some.inj hdir
  obtain rfl := Option.some.inj hcanon
  exact Or.inr ⟨"default.target.wants".toList, by decide +kernel, rfl⟩

/-- The link of an alias stays. -/
theorem alias_stays : ¬ ∀ (e : Env) (fs : FileSystem) (n : UnitName) (i : Install)
    (runtime : Bool) (base : Str), e.baseDir runtime = some base → BaseClear fs base →
    NamesPlain n i → NoInstallLinks fs base n.filename →
    (∀ a ∈ i.aliases, fs.isSymlink (joinPath base a.filename) = false) →
    Undone fs (disable e (enable e fs n i runtime false).1 n runtime).1 := by
  intro h
  have hundone := h configC emptyTree hello { aliases := [⟨"hi".toList, none, .service⟩] } false
    userC (by decide +kernel) (Or.inr (by decide +kernel)) ⟨by decide +kernel, by decide +kernel⟩
    noInstallLinks_emptyTree (by decide +kernel)
  have hleft : (disable configC (enable configC emptyTree hello
      { aliases := [⟨"hi".toList, none, .service⟩] } false false).1 hello false).1.node?
        ["c".toList, "systemd".toList, "user".toList, "hi.service".toList] =
      some (.symlink "hello.service".toList) := by decide +kernel
  have hbefore := (hundone _ (.symlink "hello.service".toList) (by simp)).mp hleft
  exact absurd hbefore (by decide +kernel)

end Systeml.Runtime
