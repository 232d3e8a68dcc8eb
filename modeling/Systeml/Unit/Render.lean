import Systeml.Unit.Ini

/-!
# Reading a rendered unit file

`render_ini` writes one line for each header and each entry. In the normal form of what
the parser accepts these lines are read one by one: none is cut, skipped or goes on. So
reading a rendered file gives its sections back (`parse_render`), up to line numbers.
-/

namespace Systeml.Unit

open Systeml.Lib

/-- Key and value of an entry. -/
def Entry.pair (e : Entry) : Str × Str := (e.key, e.value)

namespace Ini

theorem contents_eq (ini : Ini) :
    ini.contents = (ini.sections.mapVal fun _ es => es.map Entry.pair).entries := rfl

theorem contents_extend (ini : Ini) (name : Str) (entries : List Entry) :
    (ini.extend name entries).contents =
      upsertL ini.contents name fun o => o.getD [] ++ entries.map Entry.pair := by
  have h := upsertL_map (h := fun _ es => es.map Entry.pair) (k := name)
    (f := fun o => o.getD [] ++ entries) (g := fun o => o.getD [] ++ entries.map Entry.pair)
    (fun o => by cases o <;> simp) ini.sections.entries
  exact h.symm

theorem contents_extend_congr {a b : Ini} {name : Str} {es es' : List Entry}
    (h : a.contents = b.contents) (hes : es.map Entry.pair = es'.map Entry.pair) :
    (a.extend name es).contents = (b.extend name es').contents := by
  rw [contents_extend, contents_extend, h, hes]

theorem contents_merge_congr {a b added : Ini} (h : a.contents = b.contents) :
    (a.merge added).contents = (b.merge added).contents := by
  unfold merge
  induction added.sections.entries generalizing a b with
  | nil => exact h
  | cons s ss ih => exact ih (contents_extend_congr h rfl)

theorem contents_layers_congr {a b : Ini} {added : List Ini} (h : a.contents = b.contents) :
    (added.foldl merge a).contents = (added.foldl merge b).contents := by
  induction added generalizing a b with
  | nil => exact h
  | cons m ms ih => exact ih (contents_merge_congr h)

theorem entriesOf_extend (ini : Ini) (name s : Str) (entries : List Entry) :
    (ini.extend name entries).entriesOf s =
      ini.entriesOf s ++ if s = name then entries else [] := by
  unfold entriesOf extend
  by_cases hs : s = name
  · subst hs
    rw [IndexMap.get?_upsert_self, if_pos rfl, Option.getD_some]
  · rw [IndexMap.get?_upsert_ne hs, if_neg hs, List.append_nil]

/-- Each section gets the entries that are laid under it. -/
theorem entriesOf_foldl_extend (s : Str) : ∀ {ss : List (Str × List Entry)} (ini : Ini),
    (ss.map Prod.fst).Nodup →
    (ss.foldl (fun m x => m.extend x.1 x.2) ini).entriesOf s =
      ini.entriesOf s ++ (getL ss s).getD []
  | [], ini, _ => (List.append_nil _).symm
  | x :: ss, ini, h => by
    obtain ⟨hx, hss⟩ := List.nodup_cons.mp h
    rw [List.foldl_cons, entriesOf_foldl_extend s _ hss, entriesOf_extend, List.append_assoc,
      getL]
    by_cases hs : s = x.1
    · have hnone : getL ss s = none := getL_eq_none.mpr (hs ▸ hx)
      rw [if_pos hs, hnone, if_pos hs.symm]
      exact congrArg _ (List.append_nil _)
    · have hne : x.1 ≠ s := fun he => hs he.symm
      rw [if_neg hs, if_neg hne]
      rfl

theorem entriesOf_merge (a b : Ini) (s : Str) :
    (a.merge b).entriesOf s = a.entriesOf s ++ b.entriesOf s :=
  entriesOf_foldl_extend s a b.sections.nodup

theorem entriesOf_layers (s : Str) : ∀ (added : List Ini) (a : Ini),
    (added.foldl merge a).entriesOf s = a.entriesOf s ++ added.flatMap fun b => b.entriesOf s
  | [], a => (List.append_nil _).symm
  | b :: bs, a => by
    rw [List.foldl_cons, entriesOf_layers s bs, entriesOf_merge, List.append_assoc]
    rfl
/-- Entries appended twice to one section. -/
theorem extend_extend (ini : Ini) (name : Str) (es es' : List Entry) :
    (ini.extend name es).extend name es' = ini.extend name (es ++ es') := by
  have h := IndexMap.upsert_upsert ini.sections name (fun o => o.getD [] ++ es)
    fun o => o.getD [] ++ es'
  unfold extend
  rw [h]
  simp [List.append_assoc]

/-- A section that is not there comes behind the others. -/
theorem contents_extend_new {ini : Ini} {name : Str} (h : name ∉ ini.contents.map Prod.fst)
    (entries : List Entry) :
    (ini.extend name entries).contents = ini.contents ++ [(name, entries.map Entry.pair)] := by
  rw [contents_extend, upsertL_of_notMem h]
  rfl

end Ini

/-! ## Lines that are read as they stand -/

theorem chomp_of_trimmed {l : Str} (h : Trimmed l) : chomp l = l := by
  unfold chomp
  cases hs : stripSuffix l ['\r'] with
  | none => rfl
  | some t =>
    -- a carriage return is white space
    have hcr := h.last '\r' (by rw [stripSuffix_eq_some.mp hs, List.getLast?_concat])
    exact absurd hcr (by decide)

theorem parseLoop_line {path : Str} {st : IniState} {i : Nat} {l : Str} {ls : List Str}
    (h : Trimmed l) (hlast : l.getLast? ≠ some '\\') :
    parseLoop path st i none (l :: ls) =
      match applyLine path st (lineNumber i) l with
      | .error e => .error e
      | .ok st => parseLoop path st (i + 1) none ls := by
  have hfold : foldLine none l = l := chomp_of_trimmed h
  have hgo : continued l = false := by
    unfold continued
    rw [trimEnd_of_getLast h.last]
    exact beq_eq_false_iff_ne.mpr hlast
  rw [parseLoop, Option.map_none, hfold, hgo, if_neg Bool.false_ne_true, h.trim_eq]
  rfl

/-- The header of a section. -/
def headerLine (name : Str) : Str := '[' :: name ++ [']']

/-- The line of an entry. -/
def entryLine (e : Entry) : Str := e.key ++ '=' :: e.value

/-- A section, with the blank line behind it. -/
def sectionLines (s : Str × List Entry) : List Str :=
  headerLine s.1 :: s.2.map entryLine ++ [[]]

theorem renderIni_eq (ini : Ini) :
    renderIni ini = (ini.sections.entries.flatMap sectionLines).flatMap (· ++ ['\n']) := by
  have hentries : ∀ es : List Entry,
      (es.map entryLine).flatMap (· ++ ['\n']) =
        es.flatMap fun e => e.key ++ '=' :: e.value ++ ['\n'] := by
    intro es
    rw [List.flatMap_map]
    rfl
  unfold renderIni
  rw [List.flatMap_assoc]
  refine List.flatMap_congr fun s _ => ?_
  rw [sectionLines, List.flatMap_append, List.flatMap_cons, hentries]
  simp [headerLine]

theorem applyLine_header {path : Str} {st : IniState} {line : Nat} {name : Str}
    (h : CleanName name) :
    applyLine path st line (headerLine name) = .ok ⟨st.ini.extend name [], some name⟩ := by
  have hstrip : stripSuffix (headerLine name).tail [']'] = some name :=
    stripSuffix_eq_some.mpr rfl
  have hskip : isSkipped (headerLine name) = false := rfl
  have hhead : (headerLine name).head? = some '[' := rfl
  unfold applyLine
  rw [hskip, if_neg Bool.false_ne_true, if_pos hhead, hstrip]
  simp only [h.trimmed.trim_eq]

theorem trimmed_header (name : Str) : Trimmed (headerLine name) where
  head := by
    intro c hc
    rw [← Option.some.inj (show some '[' = some c from hc)]
    decide
  last := by
    intro c hc
    have he : (headerLine name).getLast? = some ']' := List.getLast?_concat
    rw [he] at hc
    rw [← Option.some.inj hc]
    decide

theorem trimmed_entry {e : Entry} (h : CleanEntry e) : Trimmed (entryLine e) where
  head := by
    intro c hc
    unfold entryLine at hc
    cases hk : e.key with
    | nil =>
      rw [hk] at hc
      rw [← Option.some.inj (show some '=' = some c from hc)]
      decide
    | cons x xs =>
      rw [hk] at hc
      exact h.key.head c (by rw [hk]; exact hc)
  last := by
    intro c hc
    unfold entryLine at hc
    rw [List.getLast?_append, List.getLast?_cons] at hc
    cases hv : e.value.getLast? with
    | none =>
      rw [hv] at hc
      rw [← Option.some.inj (show some '=' = some c from hc)]
      decide
    | some x =>
      rw [hv] at hc
      exact h.value.last c (by rw [hv]; exact hc)

theorem entryLine_last {e : Entry} (h : CleanEntry e) :
    (entryLine e).getLast? ≠ some '\\' := by
  unfold entryLine
  rw [List.getLast?_append, List.getLast?_cons]
  cases hv : e.value.getLast? with
  | none => simp
  | some x =>
    have hx := h.noBackslash
    rw [hv] at hx
    simpa using hx

theorem applyLine_entry {path : Str} {st : IniState} {line : Nat} {e : Entry} {name : Str}
    (h : CleanEntry e) (hcur : st.current = some name) :
    applyLine path st line (entryLine e) =
      .ok ⟨st.ini.extend name [⟨e.key, e.value, line⟩], some name⟩ := by
  have hhead : ∀ c, (entryLine e).head? = some c → c = '=' ∨ e.key.head? = some c := by
    intro c hc
    unfold entryLine at hc
    cases hk : e.key with
    | nil =>
      rw [hk] at hc
      exact .inl (Option.some.inj (show some '=' = some c from hc)).symm
    | cons x xs =>
      rw [hk] at hc
      exact .inr hc
  have hno : ∀ c, c ≠ '=' → e.key.head? ≠ some c → (entryLine e).head? ≠ some c := by
    intro c hc hk hl
    cases hhead c hl with
    | inl he => exact hc he
    | inr he => exact hk he
  have hskip : isSkipped (entryLine e) = false := by
    have hnone : entryLine e ≠ [] :=
      List.append_ne_nil_of_right_ne_nil _ (List.cons_ne_nil _ _)
    have h1 := hno '#' (by decide) h.noMark.1
    have h2 := hno ';' (by decide) h.noMark.2.1
    simp [isSkipped, hnone, h1, h2]
  have hsplit : splitOnce '=' (entryLine e) = some (e.key, e.value) :=
    splitOnce_eq_some.mpr ⟨rfl, h.noSeparator⟩
  unfold applyLine
  rw [hskip, if_neg Bool.false_ne_true, if_neg (hno '[' (by decide) h.noMark.2.2), hcur, hsplit]
  simp only [h.key.trim_eq, h.value.trim_eq]

/-! ## The round trip -/

/-- The entries of a section, read behind those that are there. -/
theorem parseLoop_entries (path name : Str) (base : Ini) (ls : List Str) :
    ∀ {es : List Entry} (read : List Entry) (i : Nat), (∀ e ∈ es, CleanEntry e) →
      ∃ es' i', es'.map Entry.pair = es.map Entry.pair ∧
        parseLoop path ⟨base.extend name read, some name⟩ i none (es.map entryLine ++ ls) =
          parseLoop path ⟨base.extend name (read ++ es'), some name⟩ i' none ls := by
  intro es
  induction es with
  | nil =>
    intro read i _
    exact ⟨[], i, rfl, by rw [List.append_nil]; rfl⟩
  | cons e es ih =>
    intro read i h
    have he := h e List.mem_cons_self
    obtain ⟨es', i', hpair, hloop⟩ :=
      ih (read ++ [⟨e.key, e.value, lineNumber i⟩]) (i + 1)
        fun e' he' => h e' (List.mem_cons_of_mem e he')
    refine ⟨⟨e.key, e.value, lineNumber i⟩ :: es', i', ?_, ?_⟩
    · rw [List.map_cons, List.map_cons, hpair]
      rfl
    · rw [List.map_cons, List.cons_append, parseLoop_line (trimmed_entry he) (entryLine_last he),
        applyLine_entry he rfl]
      show parseLoop path ⟨(base.extend name read).extend name _, some name⟩ _ _ _ = _
      rw [Ini.extend_extend, hloop, List.append_assoc]
      rfl

/-- Sections of their own are read one behind the other. -/
theorem parseLoop_sections {path : Str} : ∀ {ss : List (Str × List Entry)} {st : IniState}
    {i : Nat}, (∀ s ∈ ss, CleanName s.1 ∧ ∀ e ∈ s.2, CleanEntry e) →
    (st.ini.contents.map Prod.fst ++ ss.map Prod.fst).Nodup →
    ∃ r, parseLoop path st i none (ss.flatMap sectionLines ++ [[]]) = .ok r ∧
      r.contents = st.ini.contents ++ ss.map fun s => (s.1, s.2.map Entry.pair) := by
  intro ss
  induction ss with
  | nil =>
    intro st i _ _
    refine ⟨st.ini, rfl, ?_⟩
    rw [List.map_nil, List.append_nil]
  | cons s ss ih =>
    intro st i h hkeys
    obtain ⟨name, es⟩ := s
    obtain ⟨hname, hes⟩ := h (name, es) List.mem_cons_self
    have hnew : name ∉ st.ini.contents.map Prod.fst := by
      intro hmem
      have hd := (List.nodup_append.mp hkeys).2.2
      exact hd name hmem name List.mem_cons_self rfl
    obtain ⟨es', i', hpair, hloop⟩ := parseLoop_entries path name st.ini
      ([] :: (ss.flatMap sectionLines ++ [[]])) [] (i + 1) hes
    have hcontents : (st.ini.extend name ([] ++ es')).contents =
        st.ini.contents ++ [(name, es.map Entry.pair)] := by
      rw [Ini.contents_extend_new hnew, List.nil_append, hpair]
    obtain ⟨r, hr, hrc⟩ := @ih ⟨st.ini.extend name ([] ++ es'), some name⟩ (i' + 1)
      (fun s' hs' => h s' (List.mem_cons_of_mem _ hs')) (by
        rw [hcontents]
        simpa using hkeys)
    refine ⟨r, ?_, ?_⟩
    · rw [List.flatMap_cons, sectionLines, List.append_assoc, List.append_assoc, List.cons_append,
        parseLoop_line (trimmed_header name) (by simp [headerLine, List.getLast?_cons]),
        applyLine_header hname]
      show parseLoop path ⟨st.ini.extend name [], some name⟩ _ _ _ = _
      rw [List.singleton_append, hloop]
      -- the blank line behind the section
      exact hr
    · rw [hrc, hcontents]
      simp

/-- **Reading back.** What is rendered from sections in normal form parses to them. -/
theorem parse_render {ini : Ini} (path : Str) (h : Clean ini) :
    ∃ r, parseIni path (renderIni ini) = .ok r ∧ r.contents = ini.contents := by
  have hlines : ∀ l ∈ ini.sections.entries.flatMap sectionLines, '\n' ∉ l := by
    intro l hl
    obtain ⟨s, hs, hls⟩ := List.mem_flatMap.mp hl
    obtain ⟨hname, hes⟩ := h s hs
    cases List.mem_append.mp hls with
    | inr hnil =>
      rw [List.mem_singleton.mp hnil]
      exact List.not_mem_nil
    | inl hmem =>
      cases List.mem_cons.mp hmem with
      | inl hhead =>
        rw [hhead]
        simpa [headerLine] using hname.oneLine
      | inr hentry =>
        obtain ⟨e, he, rfl⟩ := List.mem_map.mp hentry
        have hk := (hes e he).keyLine
        have hv := (hes e he).valueLine
        simpa [entryLine, not_or] using ⟨hk, hv⟩
  have hsplit : splitOn '\n' (renderIni ini) = ini.sections.entries.flatMap sectionLines ++ [[]] := by
    have hsep := splitOn_flatMap_sep (c := '\n') [] hlines
    rw [List.append_nil] at hsep
    rw [renderIni_eq, hsep]
    rfl
  unfold parseIni
  rw [hsplit]
  have hloop := @parseLoop_sections path ini.sections.entries {} 0 h ini.sections.nodup
  exact hloop

end Systeml.Unit
