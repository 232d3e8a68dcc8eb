import Systeml.Unit.Loader

/-!
# Which drop-in decides

`load_unit_in` lays the drop-ins of the base directories on top of each other in the order
of the search path, which begins with the highest priority. So of the directories that set
a directive the last one decides (`loaded_value`), not the first, and the value is that of
the first only where both give the same (`decidedByPriority_iff`).
-/

namespace Systeml.Unit

open Systeml.Lib

/-! ## What one directory says -/

section Values

variable {S : Shape}

/-- What the drop-ins of a directory give a field. -/
def dirValue (R : Reader S) (t : FileTree) (f : S.Field) (dir : Str) : Option (S.Ty f) :=
  match (dropinPaths t dir).mapM (readDropin t) with
  | .ok added => R.lastValue f (added.flatMap R.entries)
  | .error _ => none

variable {R : Reader S} {t : FileTree} {f : S.Field}

theorem Reader.entries_layers (added : List Ini) (main : Ini) :
    R.entries (added.foldl Ini.merge main) = R.entries main ++ added.flatMap R.entries := by
  unfold Reader.entries
  cases R.sec with
  | some sec => exact Ini.entriesOf_layers sec.toList added main
  | none => simp

theorem Reads.of_append {ps qs : List Str} {added : List Ini} (h : Reads t (ps ++ qs) added) :
    ∃ as bs, Reads t ps as ∧ Reads t qs bs ∧ added = as ++ bs := by
  unfold Reads at *
  rw [List.mapM_append] at h
  cases hp : ps.mapM (readDropin t) with
  | error e =>
    rw [hp] at h
    exact absurd h (by simp [bind, Except.bind])
  | ok as =>
    cases hq : qs.mapM (readDropin t) with
    | error e =>
      rw [hp, hq] at h
      exact absurd h (by simp [bind, Except.bind])
    | ok bs =>
      rw [hp, hq] at h
      exact ⟨as, bs, rfl, rfl, (Except.ok.inj h).symm⟩

/-- The last directory that sets a field decides. -/
theorem lastValue_dirs : ∀ {dirs : List Str} {added : List Ini},
    Reads t (dirs.flatMap (dropinPaths t)) added →
    R.lastValue f (added.flatMap R.entries) = dirs.reverse.findSome? (dirValue R t f)
  | [], added, h => by
    obtain rfl : [] = added := Except.ok.inj h
    rfl
  | d :: ds, added, h => by
    obtain ⟨as, bs, has, hbs, rfl⟩ := Reads.of_append h
    have hd : dirValue R t f d = R.lastValue f (as.flatMap R.entries) := by
      unfold dirValue
      rw [show (dropinPaths t d).mapM (readDropin t) = .ok as from has]
    rw [List.flatMap_append, Reader.lastValue_append, lastValue_dirs hbs, List.reverse_cons,
      List.findSome?_append, List.findSome?_singleton, hd]

end Values

/-! ## The value of a loaded unit -/

section Loaded

variable {P : LeafParsers} {t : FileTree} {n : UnitName} {bases : List Str} {lu : Loaded}

/-- If drop-ins set a field, the last directory that does so gives its value. -/
theorem loaded_value (h : loadUnitIn P t n bases = .ok lu) (s : Section)
    (f : (s.shape lu.unit.kind.1).Field) {x : (s.shape lu.unit.kind.1).Ty f}
    (hx : (dropinDirs n bases).reverse.findSome?
      (dirValue (s.reader P lu.unit.kind.1) t f) = some x) :
    (lu.unit.view s).val f = x := by
  obtain ⟨name, main, added, -, hreads, hlayered⟩ := load_layered h
  obtain ⟨path, r, hr, hfields⟩ := hlayered.fields
  have hpairs := Reader.pairs_entries (R := s.reader P lu.unit.kind.1) hlayered.contents
  rw [view_val hr hfields, Reader.lastValue_congr hpairs, Reader.entries_layers,
    Reader.lastValue_append, lastValue_dirs hreads, hx]
  rfl

end Loaded

/-! ## Priority -/

section Priority

variable {α : Type} (value : Str → Option α) (n : UnitName) (bases : List Str)

/-- The first base directory with a drop-in that sets a field. -/
def FirstSetting (base : Str) : Prop :=
  ∃ pre post, bases = pre ++ base :: post ∧
    (∀ b ∈ pre, ∀ d ∈ candidateDropinDirs n b, value d = none) ∧
    ∃ d ∈ candidateDropinDirs n base, value d ≠ none

/-- The last directory with a drop-in that sets it, in the order in which they are gone
through. -/
def LastSetting (dir : Str) : Prop :=
  ∃ pre post, dropinDirs n bases = pre ++ dir :: post ∧ value dir ≠ none ∧
    ∀ d ∈ post, value d = none

/-- The directory of an instance's own drop-ins. -/
def ownDropinDir (base : Str) : Str := joinPath base (n.filename ++ ".d".toList)

/-- The directories of a base that may decide: that of the instance before the others. -/
def decidingDirs (base : Str) : List Str :=
  if n.isInstance ∧ value (ownDropinDir n base) ≠ none then [ownDropinDir n base]
  else candidateDropinDirs n base

/-- A field that drop-ins set has the value from the base directory that comes first. -/
def DecidedByPriority (x : α) : Prop :=
  ∀ base, FirstSetting value n bases base →
    ∃ d ∈ decidingDirs value n base, value d = some x

/-- The last directory that sets a field gives the value that the first base directory
gives. -/
def LastAgrees : Prop :=
  ∀ base dir, FirstSetting value n bases base → LastSetting value n bases dir →
    ∃ d ∈ decidingDirs value n base, value d = value dir

variable {value n bases}

theorem LastSetting.findSome {dir : Str} {x : α} (h : LastSetting value n bases dir)
    (hx : value dir = some x) : (dropinDirs n bases).reverse.findSome? value = some x := by
  obtain ⟨pre, post, hdirs, -, hpost⟩ := h
  have hnone : post.reverse.findSome? value = none := by
    rw [List.findSome?_eq_none_iff]
    intro d hd
    exact hpost d (List.mem_reverse.mp hd)
  rw [hdirs, List.reverse_append, List.reverse_cons, List.findSome?_append,
    List.findSome?_append, hnone, List.findSome?_singleton, hx]
  rfl

/-- If a base directory sets the field, some directory is the last to do so. -/
theorem FirstSetting.exists_last {base : Str} (h : FirstSetting value n bases base) :
    ∃ dir x, LastSetting value n bases dir ∧ value dir = some x := by
  obtain ⟨pre, post, rfl, -, d, hd, hset⟩ := h
  have hmem : d ∈ (dropinDirs n (pre ++ base :: post)).reverse := by
    refine List.mem_reverse.mpr (List.mem_flatMap.mpr ⟨base, ?_, hd⟩)
    exact List.mem_append_right _ List.mem_cons_self
  cases hlast : (dropinDirs n (pre ++ base :: post)).reverse.findSome? value with
  | none => exact absurd (List.findSome?_eq_none_iff.mp hlast d hmem) hset
  | some x =>
    obtain ⟨after, dir, before, hdirs, hx, hafter⟩ := List.findSome?_eq_some_iff.mp hlast
    refine ⟨dir, x, ⟨before.reverse, after.reverse, ?_, ?_, ?_⟩, hx⟩
    · rw [← List.reverse_reverse (dropinDirs _ _), hdirs]
      simp
    · rw [hx]
      exact Option.some_ne_none x
    · intro d hd
      exact hafter d (List.mem_reverse.mp hd)

/-- **The search path decides between drop-ins exactly when the last directory agrees.** -/
theorem decidedByPriority_iff {P : LeafParsers} {t : FileTree} {lu : Loaded}
    (h : loadUnitIn P t n bases = .ok lu) (s : Section)
    (f : (s.shape lu.unit.kind.1).Field) :
    DecidedByPriority (dirValue (s.reader P lu.unit.kind.1) t f) n bases
        ((lu.unit.view s).val f) ↔
      LastAgrees (dirValue (s.reader P lu.unit.kind.1) t f) n bases := by
  constructor
  · intro hdecided base dir hfirst hlast
    obtain ⟨d, hd, hvalue⟩ := hdecided base hfirst
    refine ⟨d, hd, ?_⟩
    cases hx : dirValue (s.reader P lu.unit.kind.1) t f dir with
    | none =>
      obtain ⟨-, -, -, hset, -⟩ := hlast
      exact absurd hx hset
    | some x => rw [hvalue, loaded_value h s f (hlast.findSome hx)]
  · intro hagrees base hfirst
    obtain ⟨dir, x, hlast, hx⟩ := hfirst.exists_last
    obtain ⟨d, hd, hvalue⟩ := hagrees base dir hfirst hlast
    refine ⟨d, hd, ?_⟩
    rw [hvalue, hx, loaded_value h s f (hlast.findSome hx)]

end Priority

/-! ## Two drop-ins for one unit -/

/-- A unit with an empty fragment. -/
def plainA : UnitName := ⟨"a".toList, none, .service⟩

/-- An empty fragment with a drop-in in each of two base directories. -/
def agreeingDropins : FileTree := .ofFiles [("/c".toList, "a.service".toList, []),
  ("/c/a.service.d".toList, "x.conf".toList, "[Unit]\nDescription=c".toList),
  ("/u/a.service.d".toList, "y.conf".toList, "[Unit]\nDescription=c".toList)]

/-- The same, but the second drop-in says something else. -/
def twoDropins : FileTree := .ofFiles [("/c".toList, "a.service".toList, []),
  ("/c/a.service.d".toList, "x.conf".toList, "[Unit]\nDescription=c".toList),
  ("/u/a.service.d".toList, "x.conf".toList, "[Unit]\nDescription=u".toList)]

theorem loads_agreeingDropins : ∃ lu, loadUnitIn noLeaves agreeingDropins plainA
    ["/c".toList, "/u".toList] = .ok lu := by
  have h : (loadUnitIn noLeaves agreeingDropins plainA ["/c".toList, "/u".toList]).toBool =
      true := by
    decide +kernel
  cases hl : loadUnitIn noLeaves agreeingDropins plainA ["/c".toList, "/u".toList] with
  | ok lu => exact ⟨lu, rfl⟩
  | error e =>
    rw [hl] at h
    exact absurd h Bool.false_ne_true

theorem loads_twoDropins : ∃ lu, loadUnitIn noLeaves twoDropins plainA
    ["/c".toList, "/u".toList] = .ok lu ∧
    (lu.unit.unit.val UnitField.description : Str) = "u".toList := by
  have h : (loadUnitIn noLeaves twoDropins plainA ["/c".toList, "/u".toList]).toOption.map
      (fun lu => (lu.unit.unit.val UnitField.description : Str)) = some "u".toList := by
    decide +kernel
  cases hl : loadUnitIn noLeaves twoDropins plainA ["/c".toList, "/u".toList] with
  | ok lu =>
    rw [hl] at h
    exact ⟨lu, rfl, Option.some.inj h⟩
  | error e =>
    rw [hl] at h
    exact absurd h (by simp [Except.toOption])

/-- Where both drop-ins say the same, the first one may be said to decide. -/
theorem decidedByPriority_iff_example : ∃ lu,
    loadUnitIn noLeaves agreeingDropins plainA ["/c".toList, "/u".toList] = .ok lu ∧
    DecidedByPriority (dirValue (unitReader noLeaves) agreeingDropins UnitField.description) plainA
      ["/c".toList, "/u".toList] (lu.unit.unit.val UnitField.description) := by
  obtain ⟨lu, h⟩ := loads_agreeingDropins
  refine ⟨lu, h, (decidedByPriority_iff h .unit UnitField.description).mpr ?_⟩
  have hvalues : ∀ d ∈ dropinDirs plainA ["/c".toList, "/u".toList],
      dirValue (unitReader noLeaves) agreeingDropins UnitField.description d = none ∨
        dirValue (unitReader noLeaves) agreeingDropins UnitField.description d =
          some ("c".toList : Str) := by decide +kernel
  have hset : ∀ d ∈ dropinDirs plainA ["/c".toList, "/u".toList],
      dirValue (Section.reader noLeaves lu.unit.kind.1 .unit) agreeingDropins
        UnitField.description d ≠ none →
      dirValue (Section.reader noLeaves lu.unit.kind.1 .unit) agreeingDropins
        UnitField.description d = some ("c".toList : Str) :=
    fun d hd hne => (hvalues d hd).resolve_left hne
  intro base dir hfirst hlast
  obtain ⟨pre, post, hbases, -, d, hd, hdset⟩ := hfirst
  obtain ⟨pre', post', hdirs, hdir, -⟩ := hlast
  have hplain : ¬ (plainA.isInstance = true ∧
      dirValue (Section.reader noLeaves lu.unit.kind.1 .unit) agreeingDropins
        UnitField.description (ownDropinDir plainA base) ≠ none) :=
    fun hinst => absurd hinst.1 (by decide)
  refine ⟨d, ?_, ?_⟩
  · unfold decidingDirs
    rw [if_neg hplain]
    exact hd
  · have hbase : base ∈ ["/c".toList, "/u".toList] := by
      rw [hbases]
      exact List.mem_append_right _ List.mem_cons_self
    rw [hset d (List.mem_flatMap.mpr ⟨base, hbase, hd⟩) hdset, hset dir ?_ hdir]
    rw [hdirs]
    exact List.mem_append_right _ List.mem_cons_self

/-- The drop-in of the second base directory decides. -/
theorem vendor_dropin_wins : ¬ ∀ (P : LeafParsers) (t : FileTree) (n : UnitName)
    (bases : List Str) (lu : Loaded), loadUnitIn P t n bases = .ok lu →
    ∀ (s : Section) (f : (s.shape lu.unit.kind.1).Field),
      DecidedByPriority (dirValue (s.reader P lu.unit.kind.1) t f) n bases
        ((lu.unit.view s).val f) := by
  intro h
  obtain ⟨lu, hload, hu⟩ := loads_twoDropins
  have hc : dirValue (unitReader noLeaves) twoDropins UnitField.description
      "/c/a.service.d".toList = some ("c".toList : Str) := by decide +kernel
  have hother : ∀ d ∈ candidateDropinDirs plainA "/c".toList, d = "/c/a.service.d".toList ∨
      dirValue (unitReader noLeaves) twoDropins UnitField.description d = none := by
    decide +kernel
  have hmem : "/c/a.service.d".toList ∈ candidateDropinDirs plainA "/c".toList := by
    decide +kernel
  obtain ⟨d, hd, hvalue⟩ := h _ _ _ _ lu hload .unit UnitField.description "/c".toList
    ⟨[], ["/u".toList], rfl, fun b hb => absurd hb List.not_mem_nil, _, hmem,
      fun hnone => absurd (hc.symm.trans hnone) (Option.some_ne_none _)⟩
  have hd' : d ∈ candidateDropinDirs plainA "/c".toList := hd
  have hvalue' : dirValue (unitReader noLeaves) twoDropins UnitField.description d =
    some (lu.unit.unit.val UnitField.description) := hvalue
  cases hother d hd' with
  | inl heq =>
    rw [heq, hc, hu] at hvalue'
    exact absurd (Option.some.inj hvalue') (by decide +kernel)
  | inr hnone =>
    rw [hnone] at hvalue'
    exact absurd hvalue' (by simp)

end Systeml.Unit
