import Systeml.Lib.IndexMap
import Systeml.Lib.Text
import Mathlib.Algebra.Ring.Nat

/-!
# Unit files as sections of entries

`ini::parse` folds the lines that end in a backslash with those that follow, skips blank
lines and comments, and takes the others as section headers or as `Key=Value`. What it
accepts is in a normal form (`Clean`, by `clean_parse`): no white space around names, keys
and values, no separator in a key, nothing that reads as a comment, a header or a
continuation. Putting entries of clean files together keeps it (`Clean.merge`).
-/

namespace Systeml.Unit

open Systeml.Lib

/-- One key=value line with its source line number. -/
structure Entry where
  key : Str
  value : Str
  line : Nat
  deriving DecidableEq, Repr

/-- Parsed INI file: ordered sections, each an ordered list of entries. -/
structure Ini where
  sections : IndexMap Str (List Entry) := .empty

namespace Ini

/-- The entries of a section. -/
def entriesOf (ini : Ini) (name : Str) : List Entry := (ini.sections.get? name).getD []

/-- Append entries to a section, which is made if it is not there. -/
def extend (ini : Ini) (name : Str) (entries : List Entry) : Ini where
  sections := ini.sections.upsert name fun o => o.getD [] ++ entries

/-- The sections of `added`, laid under those that are there. -/
def merge (ini added : Ini) : Ini :=
  added.sections.entries.foldl (fun m s => m.extend s.1 s.2) ini

/-- The sections of several files, one laid under the other. -/
def mergeAll (inis : List Ini) : Ini := inis.foldl merge {}

/-- Sections, keys and values, without line numbers. -/
def contents (ini : Ini) : List (Str × List (Str × Str)) :=
  ini.sections.entries.map fun s => (s.1, s.2.map fun e => (e.key, e.value))

end Ini

/-- A syntactic error in the INI structure. -/
structure SyntaxError where
  path : Str
  line : Nat
  message : String
  deriving DecidableEq, Repr

/-! ## The parser -/

/-- A line without its carriage return. -/
def chomp (l : Str) : Str := (stripSuffix l ['\r']).getD l

/-- The line goes on on the next one. -/
def continued (accum : Str) : Bool := (trimEnd accum).getLast? == some '\\'

/-- What is kept of a line that goes on, for the next one to be put behind. -/
def withoutBackslash (accum : Str) : Str := (trimEnd accum).dropLast

/-- A line put behind what is kept of the one before. -/
def joined (accum next : Str) : Str := accum ++ ' ' :: trimStart next

/-- Line numbers are 32 bits wide. -/
def lineNumber (i : Nat) : Nat := (i % 2 ^ 32 + 1) % 2 ^ 32

/-- A line, behind what is kept of those that go on with it. -/
def foldLine (kept : Option Str) (l : Str) : Str :=
  match kept with
  | some kept => joined kept (chomp l)
  | none => chomp l

/-- The number of a folded line is that of its first one. -/
def foldNumber (pending : Option (Nat × Str)) (i : Nat) : Nat :=
  match pending with
  | some (n, _) => n
  | none => lineNumber i

/-- Between two lines: what is parsed, and the section that directives go to. -/
structure IniState where
  ini : Ini := {}
  current : Option Str := none

/-- A blank line or a comment. -/
def isSkipped (text : Str) : Bool :=
  text.head? == none || text.head? == some '#' || text.head? == some ';'

/-- One line, with its continuations folded and without white space around it. -/
def applyLine (path : Str) (st : IniState) (line : Nat) (text : Str) :
    Except SyntaxError IniState :=
  if isSkipped text then .ok st
  else if text.head? = some '[' then
    match stripSuffix text.tail [']'] with
    | none => .error ⟨path, line, "unterminated section header"⟩
    | some name => .ok ⟨st.ini.extend (trim name) [], some (trim name)⟩
  else
    match st.current with
    | none => .error ⟨path, line, "directive outside any section"⟩
    | some sec =>
      match splitOnce '=' text with
      | none => .error ⟨path, line, "expected Key=Value"⟩
      | some (key, value) =>
        .ok { st with ini := st.ini.extend sec [⟨trim key, trim value, line⟩] }

/-- The loop over the lines from number `i` on. `pending` is a line that goes on, with the
number it has. -/
def parseLoop (path : Str) (st : IniState) (i : Nat) (pending : Option (Nat × Str)) :
    List Str → Except SyntaxError Ini
  | [] =>
    match pending with
    | some (line, _) => .error ⟨path, line, "trailing backslash with no continuation"⟩
    | none => .ok st.ini
  | l :: ls =>
    let line := foldNumber pending i
    let accum := foldLine (pending.map Prod.snd) l
    if continued accum then parseLoop path st (i + 1) (some (line, withoutBackslash accum)) ls
    else
      match applyLine path st line (trim accum) with
      | .error e => .error e
      | .ok st => parseLoop path st (i + 1) none ls

/-- Parse the contents of a unit file. `path` is purely for error reporting. -/
def parseIni (path source : Str) : Except SyntaxError Ini :=
  parseLoop path {} 0 none (splitOn '\n' source)

/-- A unit file with these sections. -/
def renderIni (ini : Ini) : Str :=
  ini.sections.entries.flatMap fun s =>
    '[' :: s.1 ++ "]\n".toList ++
      (s.2.flatMap fun e => e.key ++ '=' :: e.value ++ "\n".toList) ++ "\n".toList

/-! ## What the parser accepts -/

/-- A section name that its header gives back. -/
structure CleanName (name : Str) : Prop where
  trimmed : Trimmed name
  oneLine : '\n' ∉ name

/-- A key and a value that their line gives back. -/
structure CleanEntry (e : Entry) : Prop where
  key : Trimmed e.key
  value : Trimmed e.value
  keyLine : '\n' ∉ e.key
  valueLine : '\n' ∉ e.value
  noSeparator : '=' ∉ e.key
  /-- The line is not read as a comment or a header. -/
  noMark : e.key.head? ≠ some '#' ∧ e.key.head? ≠ some ';' ∧ e.key.head? ≠ some '['
  /-- Nor does it go on. -/
  noBackslash : e.value.getLast? ≠ some '\\'

/-- Sections in normal form. -/
def Clean (ini : Ini) : Prop :=
  ∀ s ∈ ini.sections.entries, CleanName s.1 ∧ ∀ e ∈ s.2, CleanEntry e

theorem clean_empty : Clean {} := by
  intro s hs
  exact absurd hs List.not_mem_nil

theorem Clean.extend {ini : Ini} {name : Str} {entries : List Entry} (h : Clean ini)
    (hname : CleanName name) (hentries : ∀ e ∈ entries, CleanEntry e) :
    Clean (ini.extend name entries) := by
  intro s hs
  obtain ⟨n, es⟩ := s
  have hget : (ini.sections.upsert name fun o => o.getD [] ++ entries).get? n = some es :=
    IndexMap.mem_entries.mp hs
  by_cases hn : n = name
  · subst hn
    rw [IndexMap.get?_upsert_self] at hget
    obtain rfl := Option.some.inj hget
    refine ⟨hname, ?_⟩
    intro e he
    cases List.mem_append.mp he with
    | inr he => exact hentries e he
    | inl he =>
      cases hold : ini.sections.get? n with
      | none =>
        rw [hold] at he
        exact absurd he List.not_mem_nil
      | some old =>
        rw [hold] at he
        exact (h (n, old) (IndexMap.mem_entries.mpr hold)).2 e he
  · rw [IndexMap.get?_upsert_ne hn] at hget
    exact h (n, es) (IndexMap.mem_entries.mpr hget)

theorem Clean.merge {ini added : Ini} (h : Clean ini) (hadded : Clean added) :
    Clean (ini.merge added) := by
  refine List.foldlRecOn (motive := Clean) _ _ h ?_
  intro m hm s hs
  exact hm.extend (hadded s hs).1 (hadded s hs).2

theorem Clean.mergeAll {inis : List Ini} (h : ∀ ini ∈ inis, Clean ini) :
    Clean (Ini.mergeAll inis) := by
  refine List.foldlRecOn (motive := Clean) _ _ clean_empty ?_
  intro m hm ini hini
  exact hm.merge (h ini hini)

/-- A part of a line has no line feed. -/
theorem notMem_of_subset {c : Char} {s t : Str} (h : ∀ x ∈ s, x ∈ t) (ht : c ∉ t) : c ∉ s :=
  fun hc => ht (h c hc)

theorem chomp_subset (l : Str) : ∀ c ∈ chomp l, c ∈ l := by
  intro c hc
  unfold chomp at hc
  cases hs : stripSuffix l ['\r'] with
  | none =>
    rw [hs] at hc
    exact hc
  | some t =>
    rw [hs] at hc
    rw [stripSuffix_eq_some.mp hs]
    exact List.mem_append_left _ hc

/-- The last character of a line that does not go on, once white space is cut. -/
theorem getLast_of_not_continued {accum : Str} (h : continued accum = false) :
    (trim accum).getLast? ≠ some '\\' := by
  intro hlast
  have hend := getLast_trim_of_trimEnd hlast
  unfold continued at h
  rw [hend] at h
  exact absurd h (by simp)

/-- The entry that a line gives, once white space is cut. -/
theorem cleanEntry_of_line {text key value : Str} {line : Nat} (htrim : Trimmed text)
    (hline : '\n' ∉ text) (hlast : text.getLast? ≠ some '\\')
    (hmark : text.head? ≠ some '#' ∧ text.head? ≠ some ';' ∧ text.head? ≠ some '[')
    (hsplit : splitOnce '=' text = some (key, value)) :
    CleanEntry ⟨trim key, trim value, line⟩ := by
  obtain ⟨htext, hno⟩ := splitOnce_eq_some.mp hsplit
  -- the key starts where the line does, the value ends where it does
  have hhead : ∀ c, key.head? = some c → text.head? = some c := by
    intro c hc
    rw [htext, List.head?_append, hc]
    rfl
  have hend : ∀ c, value.getLast? = some c → text.getLast? = some c := by
    intro c hc
    rw [htext, List.getLast?_append, List.getLast?_cons, hc]
    rfl
  have hkey : ∀ c, (trim key).head? = some c → text.head? = some c := by
    intro c hc
    exact hhead c (head_of_trim hc fun x hx => htrim.head x (hhead x hx))
  have hkeySub : ∀ c ∈ key, c ∈ text := by
    intro c hc
    rw [htext]
    exact List.mem_append_left _ hc
  have hvalueSub : ∀ c ∈ value, c ∈ text := by
    intro c hc
    rw [htext]
    exact List.mem_append_right _ (List.mem_cons_of_mem _ hc)
  constructor
  case key => exact trimmed_trim key
  case value => exact trimmed_trim value
  case keyLine => exact notMem_of_subset (fun x hx => hkeySub x (trim_subset key x hx)) hline
  case valueLine => exact notMem_of_subset (fun x hx => hvalueSub x (trim_subset value x hx)) hline
  case noSeparator => exact notMem_of_subset (trim_subset key) hno
  case noMark =>
    exact ⟨fun h => hmark.1 (hkey _ h), fun h => hmark.2.1 (hkey _ h),
      fun h => hmark.2.2 (hkey _ h)⟩
  case noBackslash =>
    intro h
    exact hlast (hend _ (getLast_of_trim h fun x hx => htrim.last x (hend x hx)))

/-- What a line adds to a clean file is clean. -/
theorem clean_applyLine {path : Str} {st st' : IniState} {line : Nat} {text : Str}
    (h : Clean st.ini) (hcur : ∀ sec, st.current = some sec → CleanName sec)
    (htrim : Trimmed text) (hline : '\n' ∉ text) (hlast : text.getLast? ≠ some '\\')
    (hok : applyLine path st line text = .ok st') :
    Clean st'.ini ∧ ∀ sec, st'.current = some sec → CleanName sec := by
  unfold applyLine at hok
  split at hok
  next => exact Except.ok.inj hok ▸ ⟨h, hcur⟩
  next hskip =>
    split at hok
    next hhead =>
      split at hok
      next => exact absurd hok (by simp)
      next name hname =>
        obtain rfl := Except.ok.inj hok
        have htail : '\n' ∉ name := by
          refine notMem_of_subset (fun x hx => ?_) hline
          refine List.mem_of_mem_tail ?_
          rw [stripSuffix_eq_some.mp hname]
          exact List.mem_append_left _ hx
        have hclean : CleanName (trim name) :=
          ⟨trimmed_trim name, notMem_of_subset (trim_subset name) htail⟩
        refine ⟨h.extend hclean (by simp), ?_⟩
        intro sec hsec
        exact Option.some.inj hsec ▸ hclean
    next hhead =>
      split at hok
      next => exact absurd hok (by simp)
      next sec hsec =>
        split at hok
        next => exact absurd hok (by simp)
        next key value hsplit =>
          obtain rfl := Except.ok.inj hok
          refine ⟨h.extend (hcur sec hsec) ?_, hcur⟩
          intro e he
          rw [List.mem_singleton.mp he]
          have hmark : text.head? ≠ some '#' ∧ text.head? ≠ some ';' ∧ text.head? ≠ some '[' := by
            simp [isSkipped] at hskip
            exact ⟨hskip.1.2, hskip.2, hhead⟩
          exact cleanEntry_of_line htrim hline hlast hmark hsplit

theorem joined_subset {accum next : Str} : ∀ c ∈ joined accum next, c ∈ accum ∨ c = ' ' ∨ c ∈ next := by
  intro c hc
  unfold joined at hc
  cases List.mem_append.mp hc with
  | inl h => exact .inl h
  | inr h =>
    cases List.mem_cons.mp h with
    | inl h => exact .inr (.inl h)
    | inr h => exact .inr (.inr ((trimStart_suffix next).subset h))

theorem oneLine_foldLine {pending : Option (Nat × Str)} {l : Str} (hl : '\n' ∉ l)
    (hkept : ∀ n kept, pending = some (n, kept) → '\n' ∉ kept) :
    '\n' ∉ foldLine (pending.map Prod.snd) l := by
  have hchomp := notMem_of_subset (chomp_subset l) hl
  cases pending with
  | none => exact hchomp
  | some p =>
    obtain ⟨n, kept⟩ := p
    intro hmem
    obtain h | h | h := joined_subset _ hmem
    · exact hkept n kept rfl h
    · exact absurd h (by decide)
    · exact hchomp h

theorem withoutBackslash_subset (accum : Str) : ∀ c ∈ withoutBackslash accum, c ∈ accum :=
  fun _ hc => (trimEnd_isPrefix accum).subset (List.dropLast_subset _ hc)

theorem clean_parseLoop {path : Str} : ∀ {ls : List Str} {st : IniState} {i : Nat}
    {pending : Option (Nat × Str)} {ini : Ini}, Clean st.ini →
    (∀ sec, st.current = some sec → CleanName sec) → (∀ l ∈ ls, '\n' ∉ l) →
    (∀ n kept, pending = some (n, kept) → '\n' ∉ kept) →
    parseLoop path st i pending ls = .ok ini → Clean ini := by
  intro ls
  induction ls with
  | nil =>
    intro st i pending ini h hcur hls hkept hok
    cases pending with
    | none => exact Except.ok.inj hok ▸ h
    | some p => exact absurd hok (by simp [parseLoop])
  | cons l ls ih =>
    intro st i pending ini h hcur hls hkept hok
    have hrest : ∀ l' ∈ ls, '\n' ∉ l' := fun l' hl' => hls l' (List.mem_cons_of_mem l hl')
    have haccum := oneLine_foldLine (hls l List.mem_cons_self) hkept
    rw [parseLoop] at hok
    by_cases hgo : continued (foldLine (pending.map Prod.snd) l) = true
    · rw [if_pos hgo] at hok
      refine ih h hcur hrest ?_ hok
      intro n kept hp
      obtain ⟨-, rfl⟩ := Prod.mk.inj (Option.some.inj hp)
      exact notMem_of_subset (withoutBackslash_subset _) haccum
    · rw [if_neg hgo] at hok
      cases happly : applyLine path st (foldNumber pending i)
          (trim (foldLine (pending.map Prod.snd) l)) with
      | error e =>
        rw [happly] at hok
        exact absurd hok (by simp)
      | ok st' =>
        rw [happly] at hok
        obtain ⟨h', hcur'⟩ := clean_applyLine h hcur (trimmed_trim _)
          (notMem_of_subset (trim_subset _) haccum)
          (getLast_of_not_continued (Bool.eq_false_iff.mpr hgo)) happly
        exact ih h' hcur' hrest (fun n kept hp => absurd hp (by simp)) hok

/-- What the parser accepts is in normal form. -/
theorem clean_parse {path source : Str} {ini : Ini} (h : parseIni path source = .ok ini) :
    Clean ini :=
  clean_parseLoop clean_empty (fun _ hsec => absurd hsec (by simp))
    (fun _ hl => notMem_of_mem_splitOn hl) (fun _ _ hp => absurd hp (by simp)) h

end Systeml.Unit
