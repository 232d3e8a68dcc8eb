import Systeml.Unit.Render
import Mathlib.Data.List.TakeWhile

/-!
# Comment lines

A line whose first visible character is `#` or `;` is a comment. The parser looks for it
only after folding: a comment that ends in a backslash takes the lines behind it along,
and one that stands behind a line that goes on becomes part of it. Where neither
happens above the first line that breaks the file, what is read is what is read without
the comments. Where it does, the same is read only if the rest of the file makes good what
is lost or changed (`CommentsHarmless`, `comments_ignored_iff`).
-/

namespace Systeml.Unit

open Systeml.Lib

/-- The first character that is not white space. -/
def firstVisible (s : Str) : Option Char := s.find? fun c => !isWhitespace c

/-- The first visible character is `#` or `;`. -/
def isComment (l : Str) : Bool :=
  firstVisible l == some '#' || firstVisible l == some ';'

/-- The source without its comment lines. -/
def withoutComments (source : Str) : Str :=
  List.intercalate ['\n'] ((splitOn '\n' source).filter fun l => !isComment l)

/-- What is read of a source, line numbers and messages aside. -/
def outcome (r : Except SyntaxError Ini) : Option (List (Str × List (Str × Str))) :=
  r.toOption.map Ini.contents

/-- What is kept of a line for the next one, if it goes on. -/
def carried (accum : Str) : Option Str :=
  if continued accum then some (withoutBackslash accum) else none

/-- A comment touches a directive: the line `l` is put behind `kept`, and one of them is a
comment that the other is no part of. -/
def touches (kept : Option Str) (l : Str) : Bool :=
  kept.any fun k =>
    if isComment k then !isComment l && (firstVisible l).isSome else isComment l

/-- The folded lines, without white space around them. None, where the source ends in a
line that goes on. -/
def foldedLines (kept : Option Str) : List Str → Option (List Str)
  | [] => if kept.isSome then none else some []
  | l :: ls =>
    if continued (foldLine kept l) then foldedLines (some (withoutBackslash (foldLine kept l))) ls
    else (foldedLines none ls).map (trim (foldLine kept l) :: ·)

/-- A directive and the section it is in: a header, or a key with its value. -/
abbrev SectionLine := Str × Option (Str × Str)

/-- The directives of folded lines below the header `current`. None, where a line breaks
the file: a header that is not closed, a line above the first header or without `=`. -/
def directivesFrom (current : Option Str) : List Str → Option (List SectionLine)
  | [] => some []
  | text :: ts =>
    if isSkipped text then directivesFrom current ts
    else if text.head? = some '[' then
      (stripSuffix text.tail [']']).bind fun name =>
        (directivesFrom (some (trim name)) ts).map ((trim name, none) :: ·)
    else
      current.bind fun sec => (splitOnce '=' text).bind fun kv =>
        (directivesFrom current ts).map ((sec, some (trim kv.1, trim kv.2)) :: ·)

/-- The sections named so far, and those that directives name behind them. -/
def namesAfter (names : List Str) (ds : List SectionLine) : List Str :=
  ds.foldl (fun names d => if d.1 ∈ names then names else names ++ [d.1]) names

/-- The section that the line behind the directives is in. -/
def currentAfter (current : Option Str) (ds : List SectionLine) : Option Str :=
  (ds.getLast?.map Prod.fst).or current

/-- The keys and values under a header. -/
def settings (sec : Str) (ds : List SectionLine) : List (Str × Str) :=
  ds.filterMap fun d => if d.1 = sec then d.2 else none

/-- Both are broken, or both name the same new sections in the same order and set the same
in each. -/
def SameDirectives (names : List Str) : Option (List SectionLine) → Option (List SectionLine) → Prop
  | some ds, some ds' =>
    namesAfter names ds = namesAfter names ds' ∧ ∀ sec, settings sec ds = settings sec ds'
  | ds, ds' => ds = none ∧ ds' = none

/-- No comment touches a directive above the first line that breaks the file, or from the
first that does the rest makes good what is lost or changed. `names` are the sections
above, `current` the one the line is in, `kept` what is kept of a line that goes on. -/
def CommentsHarmless (names : List Str) (current kept : Option Str) : List Str → Prop
  | [] => ∀ k ∈ kept, isComment k = false
  | l :: ls =>
    if touches kept l then
      SameDirectives names
        ((foldedLines kept (l :: ls)).bind (directivesFrom current))
        ((foldedLines (kept.filter fun k => !isComment k)
          ((l :: ls).filter fun l => !isComment l)).bind (directivesFrom current))
    else if continued (foldLine kept l) then
      CommentsHarmless names current (some (withoutBackslash (foldLine kept l))) ls
    else
      match directivesFrom current [trim (foldLine kept l)] with
      | none => True
      | some ds => CommentsHarmless (namesAfter names ds) (currentAfter current ds) none ls

/-! ## The first visible character -/

theorem head_trimStart_eq (s : Str) : (trimStart s).head? = firstVisible s :=
  (List.find?_not_eq_head?_dropWhile _ s).symm

theorem firstVisible_append (s t : Str) :
    firstVisible (s ++ t) = (firstVisible s).or (firstVisible t) := List.find?_append

theorem firstVisible_trimStart (s : Str) : firstVisible (trimStart s) = firstVisible s := by
  rw [← head_trimStart_eq, ← head_trimStart_eq, trimStart_of_head fun c hc => head_trimStart hc]

theorem head_trim_eq (s : Str) : (trim s).head? = firstVisible s := by
  cases h : trim s with
  | nil =>
    -- nothing but white space
    have hstart : trimStart s = [] := by
      cases hs : trimStart s with
      | nil => rfl
      | cons x xs =>
        have hx : isWhitespace x = false := head_trimStart (s := s) (by rw [hs]; rfl)
        obtain ⟨t, ht⟩ : ∃ t, trim s = x :: t := by
          rw [trim_eq, hs, trimEnd, List.reverse_cons, List.dropWhile_append]
          split
          · simp [hx]
          · exact ⟨_, by rw [List.reverse_append]; rfl⟩
        rw [ht] at h
        exact absurd h (by simp)
    rw [← head_trimStart_eq, hstart]
  | cons x xs =>
    obtain ⟨t, ht⟩ := trimEnd_isPrefix (trimStart s)
    rw [← trim_eq, h] at ht
    rw [← head_trimStart_eq, ← ht]
    rfl

theorem firstVisible_chomp (l : Str) : firstVisible (chomp l) = firstVisible l := by
  unfold chomp
  cases hs : stripSuffix l ['\r'] with
  | none => rfl
  | some t =>
    rw [stripSuffix_eq_some.mp hs, firstVisible_append, show firstVisible ['\r'] = none from rfl,
      Option.or_none]
    rfl

theorem firstVisible_joined (kept l : Str) :
    firstVisible (joined kept (chomp l)) = (firstVisible kept).or (firstVisible l) := by
  have hspace : firstVisible (' ' :: trimStart (chomp l)) = firstVisible l := by
    rw [← firstVisible_chomp l, ← firstVisible_trimStart (chomp l)]
    rfl
  rw [joined, firstVisible_append, hspace]

/-- Of a line that goes on only its backslash is not kept. -/
theorem firstVisible_continued {accum : Str} (h : continued accum = true) :
    firstVisible accum = (firstVisible (withoutBackslash accum)).or (some '\\') := by
  have hlast : (trimEnd accum).getLast? = some '\\' := beq_iff_eq.mp h
  obtain ⟨t, ht⟩ := trimEnd_isPrefix accum
  have hkept : trimEnd accum = withoutBackslash accum ++ ['\\'] :=
    (List.dropLast_append_getLast? '\\' hlast).symm
  have hv : firstVisible (trimEnd accum ++ t) = (firstVisible (withoutBackslash accum)).or
      ((some '\\').or (firstVisible t)) := by
    rw [firstVisible_append, hkept, firstVisible_append, Option.or_assoc]
    rfl
  rwa [ht, Option.some_or] at hv

theorem isComment_eq {s t : Str} (h : firstVisible s = firstVisible t) :
    isComment s = isComment t := by
  unfold isComment
  rw [h]

theorem isComment_withoutBackslash {accum : Str} (h : continued accum = true) :
    isComment (withoutBackslash accum) = isComment accum := by
  have hv := firstVisible_continued h
  cases hk : firstVisible (withoutBackslash accum) with
  | none =>
    rw [hk] at hv
    simp [isComment, hk, hv]
  | some c =>
    rw [hk] at hv
    exact isComment_eq (hk.trans hv.symm)

theorem isSkipped_trim {s : Str} (h : isComment s = true ∨ firstVisible s = none) :
    isSkipped (trim s) = true := by
  unfold isSkipped
  rw [head_trim_eq]
  unfold isComment at h
  cases h with
  | inl h =>
    cases Bool.or_eq_true_iff.mp h with
    | inl h => simp [beq_iff_eq.mp h]
    | inr h => simp [beq_iff_eq.mp h]
  | inr h => simp [h]

/-- A line of white space does not go on. -/
theorem not_continued_of_blank {s : Str} (h : firstVisible s = none) : continued s = false := by
  cases hc : continued s with
  | false => rfl
  | true =>
    have hv := firstVisible_continued hc
    rw [h] at hv
    exact absurd hv (by cases firstVisible (withoutBackslash s) <;> simp)

/-! ## Two readings that differ in line numbers -/

/-- The same sections, and the same section that directives go to. -/
structure SameState (a b : IniState) : Prop where
  contents : a.ini.contents = b.ini.contents
  current : a.current = b.current

/-- One line in both. -/
theorem applyLine_same (path text : Str) {a b : IniState} (line line' : Nat)
    (h : SameState a b) :
    (∃ e e', applyLine path a line text = .error e ∧ applyLine path b line' text = .error e') ∨
      ∃ a' b', applyLine path a line text = .ok a' ∧ applyLine path b line' text = .ok b' ∧
        SameState a' b' := by
  unfold applyLine
  rw [h.current]
  split
  next => exact .inr ⟨a, b, rfl, rfl, h⟩
  next =>
    split
    next =>
      split
      next => exact .inl ⟨_, _, rfl, rfl⟩
      next name => exact .inr ⟨_, _, rfl, rfl, Ini.contents_extend_congr h.contents rfl, rfl⟩
    next =>
      split
      next => exact .inl ⟨_, _, rfl, rfl⟩
      next sec =>
        split
        next => exact .inl ⟨_, _, rfl, rfl⟩
        next => exact .inr ⟨_, _, rfl, rfl, Ini.contents_extend_congr h.contents rfl, rfl⟩

/-- What both readings keep of a line that goes on: the same directive, or the one a
comment that the other does not have. -/
inductive SameKept : Option (Nat × Str) → Option (Nat × Str) → Prop where
  | none : SameKept none none
  | directive {n n' : Nat} {kept : Str} (h : isComment kept = false) :
      SameKept (some (n, kept)) (some (n', kept))
  | comment {n : Nat} {kept : Str} (h : isComment kept = true) : SameKept (some (n, kept)) none

theorem sameKept_carried {accum : Str} (n : Nat) (h : isComment accum = true) :
    SameKept ((carried accum).map fun k => (n, k)) none := by
  unfold carried
  by_cases hgo : continued accum = true
  · rw [if_pos hgo]
    exact .comment ((isComment_withoutBackslash hgo).trans h)
  · rw [if_neg hgo]
    exact .none

theorem map_snd_numbered (n : Nat) (kept : Option Str) :
    (kept.map fun k => (n, k)).map Prod.snd = kept := by
  cases kept <;> rfl

variable {path : Str}

/-- A comment or a blank line leaves what is read. -/
theorem parseLoop_skipped {a : IniState} {i : Nat} {p : Option (Nat × Str)} {l : Str}
    {ls : List Str} (h : isComment (foldLine (p.map Prod.snd) l) = true ∨
      firstVisible (foldLine (p.map Prod.snd) l) = none) :
    parseLoop path a i p (l :: ls) = parseLoop path a (i + 1)
      ((carried (foldLine (p.map Prod.snd) l)).map fun k => (foldNumber p i, k)) ls := by
  rw [parseLoop, carried]
  split
  next => rfl
  next =>
    rw [applyLine, isSkipped_trim h]
    rfl

/-! ## The directives of a source -/

/-- Sections with directives put under them. -/
def placed (c : List (Str × List (Str × Str))) (ds : List SectionLine) :
    List (Str × List (Str × Str)) :=
  ds.foldl (fun c d => upsertL c d.1 fun o => o.getD [] ++ d.2.toList) c

theorem keys_placed : ∀ {ds : List SectionLine} {c : List (Str × List (Str × Str))},
    (placed c ds).map Prod.fst = namesAfter (c.map Prod.fst) ds
  | [], _ => rfl
  | d :: ds, c => by
    rw [placed, List.foldl_cons, ← placed, keys_placed, keys_upsertL, namesAfter, namesAfter,
      List.foldl_cons]
    by_cases hd : d.1 ∈ c.map Prod.fst
    · rw [if_pos hd, if_pos hd]
    · rw [if_neg hd, if_neg hd]

theorem nodup_namesAfter : ∀ {ds : List SectionLine} {names : List Str}, names.Nodup →
    (namesAfter names ds).Nodup
  | [], _, h => h
  | d :: ds, names, h => by
    rw [namesAfter, List.foldl_cons, ← namesAfter]
    apply nodup_namesAfter
    split
    next => exact h
    next hd => exact List.nodup_append.mpr ⟨h, by simp, by
      rintro a ha b hb rfl
      exact hd (List.mem_singleton.mp hb ▸ ha)⟩

theorem getL_placed (sec : Str) : ∀ {ds : List SectionLine} {c : List (Str × List (Str × Str))},
    (getL (placed c ds) sec).getD [] = (getL c sec).getD [] ++ settings sec ds
  | [], _ => (List.append_nil _).symm
  | d :: ds, c => by
    rw [placed, List.foldl_cons, ← placed, getL_placed sec, settings, settings,
      List.filterMap_cons]
    by_cases hd : d.1 = sec
    · subst hd
      rw [getL_upsertL_self, Option.getD_some, if_pos rfl, List.append_assoc]
      cases d.2 <;> rfl
    · rw [getL_upsertL_ne (fun h => hd h.symm), if_neg hd]

/-- Sections are told by their names and what is under each. -/
theorem eq_of_sections {c c' : List (Str × List (Str × Str))} (h : (c.map Prod.fst).Nodup)
    (h' : (c'.map Prod.fst).Nodup) (hnames : c.map Prod.fst = c'.map Prod.fst)
    (hsettings : ∀ sec, (getL c sec).getD [] = (getL c' sec).getD []) : c = c' := by
  have told : ∀ {c : List (Str × List (Str × Str))}, (c.map Prod.fst).Nodup →
      c = (c.map Prod.fst).map fun sec => (sec, (getL c sec).getD []) := by
    intro c hc
    rw [List.map_map]
    refine (List.map_id c).symm.trans (List.map_congr_left ?_)
    rintro ⟨sec, kvs⟩ hmem
    show (sec, kvs) = (sec, (getL c sec).getD [])
    rw [getL_of_mem hc hmem, Option.getD_some]
  rw [told h, told h', hnames]
  exact List.map_congr_left fun sec _ => by rw [hsettings]

theorem sameDirectives_iff {c : List (Str × List (Str × Str))} (h : (c.map Prod.fst).Nodup)
    (ds ds' : Option (List SectionLine)) :
    ds.map (placed c) = ds'.map (placed c) ↔ SameDirectives (c.map Prod.fst) ds ds' := by
  cases ds with
  | none => cases ds' <;> simp [SameDirectives]
  | some ds =>
    cases ds' with
    | none => simp [SameDirectives]
    | some ds' =>
      rw [Option.map_some, Option.map_some, Option.some_inj, SameDirectives, ← keys_placed,
        ← keys_placed]
      constructor
      · intro h
        rw [h]
        refine ⟨rfl, fun sec => ?_⟩
        have hsec : (getL (placed c ds) sec).getD [] = (getL c sec).getD [] ++ settings sec ds :=
          getL_placed sec
        rw [h, getL_placed] at hsec
        exact (List.append_cancel_left hsec).symm
      · rintro ⟨hnames, hsettings⟩
        have hnodup : ∀ ds, ((placed c ds).map Prod.fst).Nodup := by
          intro ds
          rw [keys_placed]
          exact nodup_namesAfter h
        refine eq_of_sections (hnodup ds) (hnodup ds') hnames ?_
        intro sec
        rw [getL_placed, getL_placed, hsettings]

/-- A line is refused where it breaks the file, and otherwise puts its directive under the
section it is in. -/
theorem applyLine_directive (path text : Str) (a : IniState) (line : Nat) :
    match directivesFrom a.current [text] with
    | none => (∃ e, applyLine path a line text = .error e) ∧
      ∀ ts, directivesFrom a.current (text :: ts) = none
    | some ds => ∃ a', applyLine path a line text = .ok a' ∧
      a'.ini.contents = placed a.ini.contents ds ∧ a'.current = currentAfter a.current ds ∧
      ∀ ts, directivesFrom a.current (text :: ts) = (directivesFrom a'.current ts).map (ds ++ ·) := by
  unfold applyLine
  simp only [directivesFrom]
  by_cases hskip : isSkipped text = true
  · simp only [if_pos hskip]
    exact ⟨a, rfl, rfl, rfl, fun ts => by simp⟩
  · simp only [if_neg hskip]
    by_cases hhead : text.head? = some '['
    · simp only [if_pos hhead]
      cases hs : stripSuffix text.tail [']'] with
      | none => exact ⟨⟨_, rfl⟩, fun ts => rfl⟩
      | some name => exact ⟨_, rfl, Ini.contents_extend _ _ _, rfl, fun ts => rfl⟩
    · simp only [if_neg hhead]
      cases hcur : a.current with
      | none => exact ⟨⟨_, rfl⟩, fun ts => rfl⟩
      | some sec =>
        cases hsplit : splitOnce '=' text with
        | none => exact ⟨⟨_, rfl⟩, fun ts => rfl⟩
        | some kv => exact ⟨_, rfl, Ini.contents_extend _ _ _, rfl, fun ts => rfl⟩

/-- What is read of the rest of a source are its directives. -/
theorem outcome_eq : ∀ {ls : List Str} {st : IniState} {i : Nat} {p : Option (Nat × Str)},
    outcome (parseLoop path st i p ls) =
      ((foldedLines (p.map Prod.snd) ls).bind (directivesFrom st.current)).map
        (placed st.ini.contents) := by
  intro ls
  induction ls with
  | nil =>
    intro st i p
    cases p with
    | none => rfl
    | some p => rfl
  | cons l ls ih =>
    intro st i p
    rw [parseLoop, foldedLines]
    by_cases hgo : continued (foldLine (p.map Prod.snd) l) = true
    · rw [if_pos hgo, if_pos hgo]
      exact ih
    · rw [if_neg hgo, if_neg hgo]
      have hline := applyLine_directive path (trim (foldLine (p.map Prod.snd) l)) st
        (foldNumber p i)
      cases hds : directivesFrom st.current [trim (foldLine (p.map Prod.snd) l)] with
      | none =>
        rw [hds] at hline
        obtain ⟨⟨e, he⟩, hbroken⟩ := hline
        rw [he]
        cases foldedLines none ls with
        | none => rfl
        | some ts =>
          show none = (directivesFrom st.current (_ :: ts)).map (placed st.ini.contents)
          rw [hbroken]
          rfl
      | some ds =>
        rw [hds] at hline
        obtain ⟨st', hok, hcontents, -, hrest⟩ := hline
        rw [hok]
        refine (ih (p := none)).trans ?_
        rw [hcontents, Option.map_none]
        cases foldedLines none ls with
        | none => rfl
        | some ts =>
          show (directivesFrom st'.current ts).map (placed (placed st.ini.contents ds)) =
            (directivesFrom st.current (_ :: ts)).map (placed st.ini.contents)
          rw [hrest, Option.map_map]
          refine congrArg (fun f => (directivesFrom st'.current ts).map f) (funext fun ds' => ?_)
          exact List.foldl_append.symm

/-! ## With and without the comments -/

/-- One line that both read and no comment touches. What follows is judged from whatever it
leaves. -/
theorem parseLoop_both {a b : IniState} {i j : Nat} {p q : Option (Nat × Str)} {l : Str}
    {ls ls' : List Str} (h : SameState a b) (hkept : p.map Prod.snd = q.map Prod.snd)
    (hcomment : isComment (foldLine (p.map Prod.snd) l) = false)
    (htouch : ¬ touches (p.map Prod.snd) l = true)
    (hrest : ∀ {a b : IniState} {p' q' : Option (Nat × Str)}, SameState a b → SameKept p' q' →
      (outcome (parseLoop path a (i + 1) p' ls) = outcome (parseLoop path b (j + 1) q' ls') ↔
        CommentsHarmless (a.ini.contents.map Prod.fst) a.current (p'.map Prod.snd) ls)) :
    outcome (parseLoop path a i p (l :: ls)) = outcome (parseLoop path b j q (l :: ls')) ↔
      CommentsHarmless (a.ini.contents.map Prod.fst) a.current (p.map Prod.snd) (l :: ls) := by
  rw [parseLoop, parseLoop, ← hkept, CommentsHarmless, if_neg htouch]
  by_cases hgo : continued (foldLine (p.map Prod.snd) l) = true
  · rw [if_pos hgo, if_pos hgo, if_pos hgo]
    apply hrest h (.directive ?_)
    rw [isComment_withoutBackslash hgo, hcomment]
  · rw [if_neg hgo, if_neg hgo, if_neg hgo]
    have hline := applyLine_directive path (trim (foldLine (p.map Prod.snd) l)) a (foldNumber p i)
    obtain ⟨e, e', he, he'⟩ | ⟨a', b', ha, hb, hab⟩ :=
      applyLine_same path (trim (foldLine (p.map Prod.snd) l)) (foldNumber p i)
        (foldNumber q j) h
    · -- the line breaks the file in both
      cases hds : directivesFrom a.current [trim (foldLine (p.map Prod.snd) l)] with
      | none =>
        rw [he, he']
        exact ⟨fun _ => trivial, fun _ => rfl⟩
      | some ds =>
        rw [hds] at hline
        obtain ⟨a', ha, -⟩ := hline
        exact absurd (he.symm.trans ha) (by simp)
    · cases hds : directivesFrom a.current [trim (foldLine (p.map Prod.snd) l)] with
      | none =>
        rw [hds] at hline
        obtain ⟨e, he⟩ := hline.1
        exact absurd (he.symm.trans ha) (by simp)
      | some ds =>
        rw [hds] at hline
        obtain ⟨a'', ha'', hcontents, hcurrent, -⟩ := hline
        obtain rfl := Except.ok.inj (ha.symm.trans ha'')
        rw [ha, hb]
        show _ ↔ CommentsHarmless (namesAfter (a.ini.contents.map Prod.fst) ds)
          (currentAfter a.current ds) none ls
        rw [← keys_placed, ← hcontents, ← hcurrent]
        exact hrest hab .none

/-- A comment or a blank line leaves the sections and the header. -/
theorem commentsHarmless_skipped {names : List Str} {current kept : Option Str} {l : Str}
    {ls : List Str} (htouch : ¬ touches kept l = true)
    (hskip : isSkipped (trim (foldLine kept l)) = true) :
    CommentsHarmless names current kept (l :: ls) ↔
      CommentsHarmless names current (carried (foldLine kept l)) ls := by
  rw [CommentsHarmless, if_neg htouch, carried]
  by_cases hgo : continued (foldLine kept l) = true
  · rw [if_pos hgo, if_pos hgo]
  · rw [if_neg hgo, if_neg hgo]
    simp only [directivesFrom, if_pos hskip]
    rfl

theorem nodup_contents (ini : Ini) : (ini.contents.map Prod.fst).Nodup := by
  rw [Ini.contents_eq]
  exact (ini.sections.mapVal _).nodup

/-- The loop with and without the comments. -/
theorem outcome_parseLoop : ∀ {ls : List Str} {a b : IniState} {i j : Nat}
    {p q : Option (Nat × Str)}, SameState a b → SameKept p q →
    (outcome (parseLoop path a i p ls) =
        outcome (parseLoop path b j q (ls.filter fun l => !isComment l)) ↔
      CommentsHarmless (a.ini.contents.map Prod.fst) a.current (p.map Prod.snd) ls) := by
  intro ls
  induction ls with
  | nil =>
    intro a b i j p q h hkept
    cases hkept with
    | none => exact ⟨fun _ _ hk => absurd hk (by simp), fun _ => congrArg some h.contents⟩
    | directive hk => exact ⟨fun _ k hmem => Option.some.inj hmem ▸ hk, fun _ => rfl⟩
    | @comment n kept hk =>
      constructor
      · intro heq
        exact absurd heq (by simp [parseLoop, outcome, Except.toOption])
      · intro hno
        exact absurd (hno kept rfl) (by simp [hk])
  | cons l ls ih =>
    intro a b i j p q h hkept
    by_cases htouch : touches (p.map Prod.snd) l = true
    · -- what is read from here on are the directives of the rest
      have hq : (p.map Prod.snd).filter (fun k => !isComment k) = q.map Prod.snd := by
        cases hkept with
        | none => rfl
        | directive hk => simp [hk]
        | comment hk => simp [hk]
      rw [CommentsHarmless, if_pos htouch, hq, ← sameDirectives_iff (nodup_contents a.ini),
        outcome_eq, outcome_eq, h.current, h.contents]
    · cases hkept with
      | none =>
        have hfold : firstVisible (foldLine none l) = firstVisible l := firstVisible_chomp l
        cases hc : isComment l with
        | true =>
          have hskip : isComment (foldLine none l) = true := (isComment_eq hfold).trans hc
          rw [List.filter_cons_of_neg (by simp [hc]), parseLoop_skipped (p := none) (.inl hskip)]
          refine (ih h (sameKept_carried _ hskip)).trans ?_
          rw [map_snd_numbered]
          exact (commentsHarmless_skipped htouch (isSkipped_trim (.inl hskip))).symm
        | false =>
          rw [List.filter_cons_of_pos (by simp [hc])]
          exact parseLoop_both (p := none) (q := none) h rfl ((isComment_eq hfold).trans hc)
            htouch ih
      | @directive n n' kept hk =>
        have hc : isComment l = false := by
          simpa [touches, hk] using htouch
        rw [List.filter_cons_of_pos (by simp [hc])]
        refine parseLoop_both h rfl ?_ htouch ih
        -- the first visible character is that of one of the two
        have hv : firstVisible (foldLine (some kept) l) = _ := firstVisible_joined kept l
        cases hkv : firstVisible kept with
        | none =>
          rw [hkv] at hv
          exact (isComment_eq hv).trans hc
        | some c =>
          rw [hkv] at hv
          exact (isComment_eq (hv.trans hkv.symm)).trans hk
      | @comment n kept hk =>
        have hv : firstVisible (foldLine (some kept) l) = firstVisible kept := by
          refine (firstVisible_joined kept l).trans ?_
          cases hkv : firstVisible kept with
          | none => exact absurd hk (by simp [isComment, hkv])
          | some c => rfl
        have hskip : isComment (foldLine (some kept) l) = true := (isComment_eq hv).trans hk
        have hrest : ∀ {j : Nat}, outcome (parseLoop path a i (some (n, kept)) (l :: ls)) =
              outcome (parseLoop path b j none (ls.filter fun l => !isComment l)) ↔
            CommentsHarmless (a.ini.contents.map Prod.fst) a.current (some kept) (l :: ls) := by
          intro j
          rw [parseLoop_skipped (p := some (n, kept)) (.inl hskip)]
          refine (ih h (sameKept_carried _ hskip)).trans ?_
          rw [map_snd_numbered]
          exact (commentsHarmless_skipped htouch (isSkipped_trim (.inl hskip))).symm
        cases hc : isComment l with
        | true =>
          rw [List.filter_cons_of_neg (by simp [hc])]
          exact hrest
        | false =>
          -- the reading without comments has a blank line of its own here
          have hblank : firstVisible l = none := by
            simpa [touches, hk, hc] using htouch
          have hfold : firstVisible (foldLine none l) = none :=
            (firstVisible_chomp l).trans hblank
          have hnone : carried (foldLine none l) = none := by
            rw [carried, not_continued_of_blank hfold]
            rfl
          rw [List.filter_cons_of_pos (by simp [hc]), parseLoop_skipped (p := none) (.inr hfold),
            Option.map_none, hnone]
          exact hrest

end Systeml.Unit
