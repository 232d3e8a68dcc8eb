import Systeml.Unit.Name

/-!
# Paths built from unit names

Fragment lookup, drop-in lookup, the links of `enable` and `mask` and the timer
stamps all join `filename` (or the template's filename, or either with `.d`
added) to a directory. `Confined` says that each of these joins names a direct
child of that directory, and `confined_iff_noSlash` says for which accepted
strings it holds: those without `/`.
-/

namespace Systeml.Unit

open Systeml.Lib

/-- The fragment paths `locate_main` tries in one base directory: the name
itself and, for an instance, its template. -/
def mainCandidates (n : UnitName) (base : Str) : List Str :=
  joinPath base n.filename ::
    match n.templateForm with
    | some tpl => [joinPath base tpl.filename]
    | none => []

/-- The drop-in directories of a name in one base directory. -/
def candidateDropinDirs (n : UnitName) (base : Str) : List Str :=
  joinPath base (n.filename ++ ".d".toList) ::
    (match n.templateForm with
     | some tpl => [joinPath base (tpl.filename ++ ".d".toList)]
     | none => []) ++
    [joinPath base (n.kind.suffix.drop 1 ++ ".d".toList)]

/-- `Path::with_extension`, for a path that ends in a file name: what follows the last dot
of that name is replaced, unless the name starts with that dot. -/
def withExtension (p ext : Str) : Str :=
  match splitOnce '.' (p.reverse.takeWhile (· != '/')) with
  | none | some (_, []) => p ++ '.' :: ext
  | some (_, stem) => (p.reverse.dropWhile (· != '/')).reverse ++ stem.reverse ++ '.' :: ext

/-- `p` names a direct child of `base`. -/
def DirectChild (base p : Str) : Prop :=
  ∃ f, PlainName f ∧ components p = components base ++ [f]

/-- Every path the loader, the link operations (`dir.join(filename)`) and the
stamp files build from `n` stays a direct child of the directory it is built
in, because the filename is one plain, relative component. A stamp is written to
a `.tmp` file next to it first. -/
structure Confined (n : UnitName) (base : Str) : Prop where
  plain : PlainName n.filename
  relative : isAbsolute n.filename = false
  child : components (joinPath base n.filename) = components base ++ [n.filename]
  fragment : ∀ p ∈ mainCandidates n base, DirectChild base p
  dropin : ∀ p ∈ candidateDropinDirs n base, DirectChild base p
  temporary : DirectChild base (withExtension (joinPath base n.filename) "tmp".toList)

theorem directChild_join {base f : Str} (h : PlainName f) :
    DirectChild base (joinPath base f) :=
  ⟨f, h, components_joinPath h⟩

/-- A text of more than two characters without `/` is a plain name. -/
theorem plainName_of_length {f : Str} (hs : '/' ∉ f) (hl : 2 < f.length) : PlainName f where
  nonempty := fun e => by simp [e] at hl
  noSlash := hs
  notDot := fun e => by simp [e] at hl
  notDotDot := fun e => by simp [e] at hl

/-- A filename is longer than any suffix, and only its stem and instance can
bring a `/` into it. -/
theorem filename_length (n : UnitName) : 2 < n.filename.length := by
  have h := n.kind.suffix_spec.2.1
  unfold UnitName.filename
  split <;> simp <;> omega

theorem noSlash_filename_iff (n : UnitName) :
    '/' ∉ n.filename ↔ '/' ∉ n.stem ∧ ∀ i, n.inst = some i → '/' ∉ i := by
  have h := n.kind.suffix_spec.1
  unfold UnitName.filename
  split
  next hi => simp [hi, h]
  next i hi => simp [hi, h]

theorem plainName_filename {n : UnitName} (h : '/' ∉ n.filename) : PlainName n.filename :=
  plainName_of_length h (filename_length n)

/-- Adding `.d` to a plain filename keeps it plain. -/
theorem plainName_dropin {f : Str} (h : '/' ∉ f) (hl : 2 < f.length) :
    PlainName (f ++ ".d".toList) :=
  plainName_of_length (by simpa using h) (by simp; omega)

/-- The template of a name without `/` has no `/` either. -/
theorem noSlash_templateForm {n t : UnitName} (h : '/' ∉ n.filename)
    (ht : n.templateForm = some t) : '/' ∉ t.filename := by
  unfold UnitName.templateForm at ht
  split at ht
  next =>
    obtain rfl : UnitName.template n.stem n.kind = t := by simpa using ht
    have hst := ((noSlash_filename_iff n).mp h).1
    exact (noSlash_filename_iff _).mpr ⟨hst, fun i hi => by
      obtain rfl : [] = i := by simpa [UnitName.template] using hi
      simp⟩
  next => exact absurd ht (by simp)

/-- What is put in front of a relative path that is joined ends in a separator. -/
theorem joinPath_front (base : Str) :
    ∃ dir : Str, (∀ c ∈ dir.reverse.head?, c = '/') ∧
      ∀ f, isAbsolute f = false → joinPath base f = dir ++ f := by
  by_cases hb : base = []
  · refine ⟨[], by simp, fun f hf => ?_⟩
    simp [joinPath, hf, hb]
  · by_cases hl : base.getLast? = some '/'
    · refine ⟨base, ?_, fun f hf => ?_⟩
      · rw [List.head?_reverse, hl]
        simp
      · simp [joinPath, hf, hb, hl]
    · refine ⟨base ++ ['/'], by simp, fun f hf => ?_⟩
      simp [joinPath, hf, hb, hl]

/-- The extension is replaced within the name that was joined. -/
theorem withExtension_joinPath (base : Str) {f ext : Str} (h : PlainName f) (hext : '/' ∉ ext) :
    ∃ g : Str, '/' ∉ g ∧ ext.length < g.length ∧
      withExtension (joinPath base f) ext = joinPath base g := by
  obtain ⟨dir, hdir, hjoin⟩ := joinPath_front base
  have hrelative : ∀ {g : Str}, '/' ∉ g → isAbsolute g = false := by
    intro g hg
    cases g with
    | nil => rfl
    | cons c g =>
      apply beq_eq_false_iff_ne.mpr
      rintro hc
      exact hg (Option.some.inj hc ▸ List.mem_cons_self)
  have hspan : (joinPath base f).reverse.takeWhile (· != '/') = f.reverse ∧
      (joinPath base f).reverse.dropWhile (· != '/') = dir.reverse := by
    have hrun : ∀ c ∈ f.reverse, (c != '/') = true := fun c hc =>
      bne_iff_ne.mpr fun he => h.noSlash (he ▸ List.mem_reverse.mp hc)
    rw [hjoin f h.notAbsolute, List.reverse_append]
    exact span_append dir.reverse hrun fun c hc => by simp [hdir c hc]
  have hlong : joinPath base f ++ '.' :: ext = joinPath base (f ++ '.' :: ext) := by
    rw [hjoin f h.notAbsolute, hjoin _ (hrelative (by simp [h.noSlash, hext])), List.append_assoc]
  unfold withExtension
  rw [hspan.1, hspan.2]
  split
  next => exact ⟨_, by simp [h.noSlash, hext], by simp; omega, hlong⟩
  next => exact ⟨_, by simp [h.noSlash, hext], by simp; omega, hlong⟩
  next suffix stem hstem hsplit =>
    have hstemSlash : '/' ∉ stem := by
      intro hmem
      refine h.noSlash (List.mem_reverse.mp ?_)
      rw [(splitOnce_eq_some.mp hsplit).1]
      exact List.mem_append_right _ (List.mem_cons_of_mem _ hmem)
    refine ⟨stem.reverse ++ '.' :: ext, by simp [hstemSlash, hext], by simp; omega, ?_⟩
    rw [hjoin _ (hrelative (by simp [hstemSlash, hext])), List.reverse_reverse, List.append_assoc]

theorem confined_of_noSlash {n : UnitName} (h : '/' ∉ n.filename) (base : Str) :
    Confined n base where
  temporary := by
    obtain ⟨g, hg, hl, heq⟩ :=
      withExtension_joinPath base (plainName_filename h) (show '/' ∉ "tmp".toList by decide)
    rw [heq]
    exact directChild_join (plainName_of_length hg (Nat.lt_of_succ_lt hl))
  plain := plainName_filename h
  relative := (plainName_filename h).notAbsolute
  child := components_joinPath (plainName_filename h)
  fragment := by
    intro p hp
    rcases List.mem_cons.mp hp with rfl | hp
    · exact directChild_join (plainName_filename h)
    · cases ht : n.templateForm with
      | none => simp [ht] at hp
      | some t =>
        obtain rfl : p = joinPath base t.filename := by simpa [ht] using hp
        exact directChild_join (plainName_filename (noSlash_templateForm h ht))
  dropin := by
    intro p hp
    have hk : PlainName (n.kind.suffix.drop 1 ++ ".d".toList) := by
      refine plainName_of_length ?_ ?_
      · have hd := fun hm => n.kind.suffix_spec.1 (List.mem_of_mem_drop (i := 1) hm)
        simpa using hd
      · have := n.kind.suffix_spec.2.1
        simp
        omega
    cases ht : n.templateForm with
    | none =>
      obtain rfl | rfl := show p = joinPath base (n.filename ++ ".d".toList) ∨
          p = joinPath base (n.kind.suffix.drop 1 ++ ".d".toList) by
        simpa [candidateDropinDirs, ht] using hp
      · exact directChild_join (plainName_dropin h (filename_length n))
      · exact directChild_join hk
    | some t =>
      have hnt := noSlash_templateForm h ht
      obtain rfl | rfl | rfl := show p = joinPath base (n.filename ++ ".d".toList) ∨
          p = joinPath base (t.filename ++ ".d".toList) ∨
          p = joinPath base (n.kind.suffix.drop 1 ++ ".d".toList) by
        simpa [candidateDropinDirs, ht] using hp
      · exact directChild_join (plainName_dropin h (filename_length n))
      · exact directChild_join (plainName_dropin hnt (filename_length t))
      · exact directChild_join hk

/-- **Which accepted names stay inside a directory**: exactly those whose text
has no `/`. -/
theorem confined_iff_noSlash {s : Str} {n : UnitName} (h : fromStr s = .ok n) (base : Str) :
    Confined n base ↔ '/' ∉ s := by
  have hf := filename_of_fromStr h
  constructor
  · intro hc
    rw [← hf]
    exact hc.plain.noSlash
  · intro hs
    exact confined_of_noSlash (by rw [hf]; exact hs) base

/-- An accepted name without `/`, through the theorem itself. -/
theorem confined_iff_noSlash_example :
    Confined ⟨"foo".toList, some "bar".toList, .service⟩ "/etc/systemd/user".toList ↔
      '/' ∉ "foo@bar.service".toList :=
  confined_iff_noSlash (by rfl) _

/-- The name `../../outside.service` is accepted, and joining it to the user's
configuration directory leaves that directory. -/
theorem not_all_accepted_confined :
    ¬ ∀ (s : Str) (n : UnitName) (base : Str), fromStr s = .ok n → Confined n base := by
  intro h
  have hc := h "../../outside.service".toList ⟨"../../outside".toList, none, .service⟩
    "/home/u/.config/systemd/user".toList (by rfl)
  exact hc.plain.noSlash (by decide)

end Systeml.Unit
