import Systeml.Lib.Slice
import Systeml.Lib.TextLines
import Systeml.Runtime.ChildCommand

/-!
# What a variable of a child holds

The variables of a child come in layers: those that the manager passes on, the environment
files, the assignments of `Environment=`, which are expanded in what stands before them,
and what the caller adds; `UnsetEnvironment=` takes variables away before the last of these.
`child_env` says for every variable which layer decides it.

`Environment=` is a program of assignments, and a variable depends on its slice of it and
on the variables that are live at the start, and on nothing else (`child_env_slice`).

A file of assignments in any of the quotes, with comments and blank lines between them, is
read as what it says (`saved_env`).
-/

namespace Systeml.Runtime

open Systeml.Lib Systeml.Unit

/-! ## References -/

/-- The variables that a text refers to. -/
def references : Str → List Str
  | [] => []
  | c :: cs =>
    if c ≠ '$' then references cs
    else match cs with
      | [] => []
      | d :: ds =>
        if d = '{' then
          ds.takeWhile (· ≠ '}') :: references (ds.dropWhile (· ≠ '}')).tail
        else if isNameStart d then
          (d :: ds).takeWhile isNameChar :: references ((d :: ds).dropWhile isNameChar)
        else references (d :: ds)
termination_by s => s.length
decreasing_by
  · simp
  · have := (List.dropWhile_suffix (· ≠ '}') (l := ds)).length_le
    have := (ds.dropWhile (· ≠ '}')).length_tail
    simp only [List.length_cons]
    omega
  · have := (List.dropWhile_suffix isNameChar (l := d :: ds)).length_le
    simp only [List.length_cons] at *
    omega
  · simp

theorem valueOf_congr {m m' : Vars} {name : Str} (h : m.get? name = m'.get? name) :
    valueOf m name = valueOf m' name := by
  unfold valueOf
  rw [h]

theorem expandVars_dollar (m : Vars) : expandVars m ['$'] = ['$'] := by
  rw [expandVars.eq_def]
  rfl

theorem expandVars_other {m : Vars} {d : Char} {ds : Str} (hd : d ≠ '{')
    (hs : ¬ isNameStart d = true) :
    expandVars m ('$' :: d :: ds) = '$' :: expandVars m (d :: ds) := by
  rw [expandVars.eq_def]
  show (if d = '{' then _ else if isNameStart d = true then _ else _) = _
  rw [if_neg hd, if_neg hs]

/-- A text is expanded by the variables that it refers to. -/
theorem expandVars_congr (m m' : Vars) (t : Str)
    (h : ∀ x ∈ references t, m.get? x = m'.get? x) : expandVars m t = expandVars m' t := by
  fun_induction references t with
  | case1 => rw [expandVars_nil, expandVars_nil]
  | case2 c cs hc ih => rw [expandVars_literal hc, expandVars_literal hc, ih h]
  | case3 c hc =>
    obtain rfl : c = '$' := not_not.mp hc
    rw [expandVars_dollar, expandVars_dollar]
  | case4 c hc ds ih =>
    obtain rfl : c = '$' := not_not.mp hc
    obtain ⟨hname, hrest⟩ := List.forall_mem_cons.mp h
    rw [expandVars_braced, expandVars_braced, valueOf_congr hname, ih hrest]
  | case5 c hc d ds hd hstart ih =>
    obtain rfl : c = '$' := not_not.mp hc
    obtain ⟨hname, hrest⟩ := List.forall_mem_cons.mp h
    rw [expandVars_name hstart, expandVars_name hstart, valueOf_congr hname, ih hrest]
  | case6 c hc d ds hd hstart ih =>
    obtain rfl : c = '$' := not_not.mp hc
    rw [expandVars_other hd hstart, expandVars_other hd hstart, ih h]

/-- How a text of `Environment=` is read. -/
def expansion : Reading Str Str Str := ⟨expandVars, references, expandVars_congr⟩

/-! ## The layers -/

/-- The variable that a line of an environment file sets. -/
def envLine? (line : Str) : Option (Str × Str) :=
  let trimmed := trim line
  if trimmed = [] ∨ trimmed.head? = some '#' then none
  else (splitOnce '=' trimmed).map fun x => (trim x.1, unquoted (trim x.2))

theorem envLine_eq (env : Vars) (line : Str) : envLine env line =
    (envLine? line).elim env fun x => env.insert x.1 x.2 := by
  unfold envLine envLine?
  dsimp only
  split
  next => rfl
  next => cases splitOnce '=' (trim line) <;> rfl

/-- What the lines of an environment file set. -/
def fileVars (contents : Str) : List (Str × Str) := (lines contents).filterMap envLine?

/-- What an environment file sets, if it can be read. -/
def readVars (src : Sources) (ef : EnvironmentFile) : Option (List (Str × Str)) :=
  match src.readToString ef.path with
  | .ok contents => some (fileVars contents)
  | .error e => if ef.isOptional ∧ e = .notFound then some [] else none

section Layers

variable (src : Sources) (svc : serviceShape.Rec)

/-- What the environment files set, as far as they can be read. -/
def fileLayer : List (Str × Str) :=
  (svc.list .environmentFiles).flatMap fun ef => (readVars src ef).getD []

/-- A variable before `Environment=`: read from a file, or passed on. -/
def beforeEntries (k : Str) : Option Str :=
  (IndexMap.last (fileLayer src svc) k).or
    (if k ∈ svc.list .passEnvironment then src.inherited k else none)

/-- The variables before `Environment=`. -/
def startVars : Vars :=
  (fileLayer src svc).foldl (fun m x => m.insert x.1 x.2)
    ((svc.list .passEnvironment).foldl (passOn src) .empty)

/-- What a service gives a variable. -/
def serviceVar (k : Str) : Option Str :=
  if k ∈ svc.list .unsetEnvironment then none
  else match Reading.lastTo k (svc.list .environment) with
    -- expanded in what stands before it
    | some (before, text) => some (expandVars (expansion.run (startVars src svc) before) text)
    | none => beforeEntries src svc k

end Layers

section Lookup

variable {src : Sources} {svc : serviceShape.Rec} {env : Vars} {k : Str}

theorem foldl_envLine : ∀ (ls : List Str) (m : Vars), ls.foldl envLine m =
    (ls.filterMap envLine?).foldl (fun m x => m.insert x.1 x.2) m
  | [], _ => rfl
  | l :: ls, m => by
    rw [List.foldl_cons, foldl_envLine ls, envLine_eq, List.filterMap_cons]
    cases envLine? l <;> rfl

theorem get?_passOn : ∀ (ks : List Str) (m : Vars), (ks.foldl (passOn src) m).get? k =
    (if k ∈ ks then src.inherited k else none).or (m.get? k)
  | [], _ => rfl
  | a :: ks, m => by
    rw [List.foldl_cons, get?_passOn ks]
    have hone : (passOn src m a).get? k =
        (if k = a then src.inherited k else none).or (m.get? k) := by
      unfold passOn
      by_cases hk : k = a
      · subst hk
        rw [if_pos rfl]
        cases src.inherited k with
        | none => rfl
        | some v => exact IndexMap.get?_insert_self ..
      · rw [if_neg hk]
        cases src.inherited a with
        | none => rfl
        | some v => exact IndexMap.get?_insert_ne hk ..
    rw [hone]
    by_cases hk : k = a
    · subst hk
      rw [if_pos rfl, if_pos List.mem_cons_self]
      split
      next => cases src.inherited k <;> rfl
      next => rfl
    · rw [if_neg hk]
      simp [hk]

theorem get?_startVars : (startVars src svc).get? k = beforeEntries src svc k := by
  unfold startVars beforeEntries
  rw [IndexMap.get?_foldl_insert, get?_passOn, IndexMap.get?_empty, Option.or_none]

theorem loadEnvFile_some {ef : EnvironmentFile} {l : List (Str × Str)}
    (h : readVars src ef = some l) (env : Vars) :
    loadEnvFile src env ef = .ok (l.foldl (fun m x => m.insert x.1 x.2) env) := by
  unfold readVars at h
  unfold loadEnvFile
  cases hr : src.readToString ef.path with
  | ok contents =>
    rw [hr] at h
    obtain rfl := Option.some.inj h
    show Except.ok _ = Except.ok _
    rw [foldl_envLine]
    rfl
  | error e =>
    rw [hr] at h
    dsimp only at h ⊢
    split at h
    next hopt =>
      obtain rfl := Option.some.inj h
      rw [if_pos hopt]
      rfl
    next => exact absurd h (by simp)

theorem loadEnvFile_none {ef : EnvironmentFile} (h : readVars src ef = none) (env : Vars) :
    ∃ e, src.readToString ef.path = .error e ∧ loadEnvFile src env ef = .error (ef.path, e) := by
  unfold readVars at h
  unfold loadEnvFile
  cases hr : src.readToString ef.path with
  | ok contents =>
    rw [hr] at h
    exact absurd h (by simp)
  | error e =>
    rw [hr] at h
    dsimp only at h ⊢
    split at h
    next => exact absurd h (by simp)
    next hopt => exact ⟨e, rfl, if_neg hopt⟩

/-- The first file that has to be there and cannot be read. -/
def Unreadable (src : Sources) (files : List EnvironmentFile) (path : Str) (e : ReadError) : Prop :=
  ∃ before ef after, files = before ++ ef :: after ∧
    (∀ f ∈ before, (readVars src f).isSome = true) ∧ readVars src ef = none ∧
    ef.path = path ∧ src.readToString path = .error e

/-- The files are read one after the other, up to one that cannot be. -/
theorem foldlM_loadEnvFile (src : Sources) : ∀ (files : List EnvironmentFile) (env : Vars),
    (∃ path e, Unreadable src files path e ∧
      files.foldlM (loadEnvFile src) env = .error (path, e)) ∨
    (∀ f ∈ files, (readVars src f).isSome = true) ∧ files.foldlM (loadEnvFile src) env =
      .ok ((files.flatMap fun ef => (readVars src ef).getD []).foldl
        (fun m x => m.insert x.1 x.2) env)
  | [], _ => Or.inr ⟨by simp, rfl⟩
  | ef :: files, env => by
    cases hr : readVars src ef with
    | none =>
      obtain ⟨e, herr, hload⟩ := loadEnvFile_none hr env
      refine Or.inl ⟨ef.path, e, ⟨[], ef, files, rfl, by simp, hr, rfl, herr⟩, ?_⟩
      rw [List.foldlM_cons, hload]
      rfl
    | some l =>
      have hhead : (readVars src ef).isSome = true := by
        rw [hr]
        rfl
      have hstep : (ef :: files).foldlM (loadEnvFile src) env =
          files.foldlM (loadEnvFile src) (l.foldl (fun m x => m.insert x.1 x.2) env) := by
        rw [List.foldlM_cons, loadEnvFile_some hr]
        rfl
      obtain ⟨path, e, ⟨before, f, after, rfl, hbefore, hf⟩, herr⟩ | ⟨hall, hok⟩ :=
        foldlM_loadEnvFile src files (l.foldl (fun m x => m.insert x.1 x.2) env)
      · exact Or.inl ⟨path, e, ⟨ef :: before, f, after, rfl,
          List.forall_mem_cons.mpr ⟨hhead, hbefore⟩, hf⟩, hstep.trans herr⟩
      · refine Or.inr ⟨List.forall_mem_cons.mpr ⟨hhead, hall⟩, ?_⟩
        rw [hstep, hok, List.flatMap_cons, List.foldl_append, hr]
        rfl

theorem resolveEnvironment_cases (src : Sources) (svc : serviceShape.Rec) :
    (∃ path e, Unreadable src (svc.list .environmentFiles) path e ∧
      resolveEnvironment src svc = .error (path, e)) ∨
    (∀ f ∈ svc.list .environmentFiles, (readVars src f).isSome = true) ∧
      resolveEnvironment src svc = .ok ((svc.list .unsetEnvironment).foldl IndexMap.erase
        (expansion.run (startVars src svc) (svc.list .environment))) := by
  unfold resolveEnvironment
  obtain ⟨path, e, hun, herr⟩ | ⟨hall, hok⟩ := foldlM_loadEnvFile src
    (svc.list .environmentFiles) ((svc.list .passEnvironment).foldl (passOn src) .empty)
  · exact Or.inl ⟨path, e, hun, by rw [herr]⟩
  · refine Or.inr ⟨hall, ?_⟩
    rw [hok]
    rfl

/-- What a service gives its variables is what they hold. -/
theorem get?_resolveEnvironment (h : resolveEnvironment src svc = .ok env) :
    env.get? k = serviceVar src svc k := by
  obtain ⟨path, e, -, herr⟩ | ⟨-, hok⟩ := resolveEnvironment_cases src svc
  · rw [herr] at h
    exact absurd h (by simp)
  · rw [hok] at h
    obtain rfl := Except.ok.inj h
    unfold serviceVar
    rw [IndexMap.get?_foldl_erase, Reading.run_decided, get?_startVars]
    by_cases hk : k ∈ svc.list .unsetEnvironment
    · rw [if_pos hk, if_pos hk]
    · rw [if_neg hk, if_neg hk]
      cases Reading.lastTo k (svc.list .environment) <;> rfl

theorem last_entries (m : Vars) (k : Str) : IndexMap.last m.entries k = m.get? k := by
  rw [← IndexMap.get?_ofList]
  unfold IndexMap.get?
  rw [IndexMap.entries_ofList m.nodup]

/-- The caller's variables come on top of those of the service. -/
theorem get?_buildCommand {host : Host} {cmd : ExecCommand} {extraEnv : List (Str × Str)}
    {c : Command} (h : buildCommand host cmd svc env extraEnv = .ok c) :
    c.env.get? k = (IndexMap.last extraEnv k).or (env.get? k) := by
  have henv : c.env = .ofList (env.entries ++ extraEnv) := by
    unfold buildCommand at h
    split at h
    next => exact absurd h (by simp)
    next =>
      obtain ⟨dir, -, h⟩ := bind_ok.mp h
      obtain ⟨stdin, -, h⟩ := bind_ok.mp h
      obtain ⟨stdout, -, h⟩ := bind_ok.mp h
      obtain ⟨stderr, -, h⟩ := bind_ok.mp h
      obtain rfl := Except.ok.inj h
      rfl
  rw [henv, IndexMap.get?_ofList, IndexMap.last_append, last_entries]

end Lookup

/-- **Which layer decides a variable.** Either an environment file cannot be read, and the
error names the first that cannot; or every variable of a child holds what the caller adds,
or else what its service gives it. -/
theorem child_env (src : Sources) (host : Host) (cmd : ExecCommand) (svc : serviceShape.Rec)
    (extraEnv : List (Str × Str)) :
    (∃ path e, Unreadable src (svc.list .environmentFiles) path e ∧
      resolveEnvironment src svc = .error (path, e)) ∨
    (∀ f ∈ svc.list .environmentFiles, (readVars src f).isSome = true) ∧
      ∃ env, resolveEnvironment src svc = .ok env ∧
        ∀ c, buildCommand host cmd svc env extraEnv = .ok c →
          ∀ k, c.env.get? k = (IndexMap.last extraEnv k).or (serviceVar src svc k) := by
  rcases resolveEnvironment_cases src svc with herr | ⟨hall, hok⟩
  · exact Or.inl herr
  · refine Or.inr ⟨hall, _, hok, fun c hc k => ?_⟩
    rw [get?_buildCommand hc, get?_resolveEnvironment hok]

/-! ## What a variable depends on -/

/-- **A variable depends on its slice** of `Environment=` and on the variables that are live
before it. -/
theorem child_env_slice {src src' : Sources} {svc svc' : serviceShape.Rec} {env env' : Vars}
    (h : resolveEnvironment src svc = .ok env) (h' : resolveEnvironment src' svc' = .ok env')
    {k : Str}
    (hslice : expansion.slice (svc.list .environment) [k] =
      expansion.slice (svc'.list .environment) [k])
    (hlive : ∀ x ∈ expansion.live (svc.list .environment) [k],
      beforeEntries src svc x = beforeEntries src' svc' x)
    (hunset : k ∈ svc.list .unsetEnvironment ↔ k ∈ svc'.list .unsetEnvironment) :
    env.get? k = env'.get? k := by
  have hrun : (expansion.run (startVars src svc) (svc.list .environment)).get? k =
      (expansion.run (startVars src' svc') (svc'.list .environment)).get? k := by
    apply Reading.run_slice_eq hslice
    · intro x hx
      rw [get?_startVars, get?_startVars, hlive x hx]
    · exact List.mem_singleton_self k
  obtain ⟨path, e, -, herr⟩ | ⟨-, hok⟩ := resolveEnvironment_cases src svc
  · rw [herr] at h
    exact absurd h (by simp)
  obtain ⟨path, e, -, herr⟩ | ⟨-, hok'⟩ := resolveEnvironment_cases src' svc'
  · rw [herr] at h'
    exact absurd h' (by simp)
  rw [hok] at h
  rw [hok'] at h'
  obtain rfl := Except.ok.inj h
  obtain rfl := Except.ok.inj h'
  rw [IndexMap.get?_foldl_erase, IndexMap.get?_foldl_erase, hrun]
  simp only [hunset]

/-- A machine that passes on nothing and has no files. -/
def noSources : Sources := ⟨fun _ => none, fun _ => .error .notFound⟩

/-- A service with these assignments. -/
def assigning (entries : List (Str × Str)) : serviceShape.Rec :=
  bareService.add .environment entries

/-- What is assigned to `C` does not matter to `B`. -/
theorem child_env_slice_two : ∃ env env',
    resolveEnvironment noSources (assigning [(['A'], ['1']), (['B'], ['$', 'A'])]) = .ok env ∧
    resolveEnvironment noSources (assigning
      [(['C'], ['3']), (['A'], ['1']), (['C'], ['$', 'B']), (['B'], ['$', 'A'])]) = .ok env' ∧
    env.get? ['B'] = env'.get? ['B'] := by
  have hrefs : references ['$', 'A'] = [['A']] := by
    simp [references, isNameStart, isNameChar, isAsciiAlphanumeric]
  have hone : references ['1'] = [] := by simp [references]
  obtain ⟨env, hfew⟩ : ∃ env, resolveEnvironment noSources
    (assigning [(['A'], ['1']), (['B'], ['$', 'A'])]) = .ok env := ⟨_, rfl⟩
  obtain ⟨env', hmany⟩ : ∃ env, resolveEnvironment noSources (assigning
    [(['C'], ['3']), (['A'], ['1']), (['C'], ['$', 'B']), (['B'], ['$', 'A'])]) = .ok env :=
    ⟨_, rfl⟩
  refine ⟨env, env', hfew, hmany, child_env_slice hfew hmany ?_ (fun x _ => rfl) Iff.rfl⟩
  show expansion.slice [(['A'], ['1']), (['B'], ['$', 'A'])] [['B']] = expansion.slice
    [(['C'], ['3']), (['A'], ['1']), (['C'], ['$', 'B']), (['B'], ['$', 'A'])] [['B']]
  simp [Reading.slice, Reading.live, Reading.liveBefore, expansion, hrefs, hone]

/-! ## Files that were written -/

/-- The quotes around a value in an environment file. -/
inductive EnvQuotes where
  | bare | double | single
  deriving DecidableEq, Repr

def EnvQuotes.wrap : EnvQuotes → Str → Str
  | bare, v => v
  | double, v => '"' :: (v ++ ['"'])
  | single, v => '\'' :: (v ++ ['\''])

/-- A line of an environment file. -/
inductive EnvItem where
  | blank (text : Str)
  | comment (text : Str)
  | var (name value : Str) (quotes : EnvQuotes)
  deriving DecidableEq, Repr

namespace EnvItem

/-- How a line is written. -/
def text : EnvItem → Str
  | blank t => t
  | comment t => '#' :: t
  | var name value quotes => name ++ '=' :: quotes.wrap value

/-- What a line says. -/
def sets : EnvItem → Option (Str × Str)
  | var name value _ => some (name, value)
  | blank _ | comment _ => none

/-- A line that can be read back. A value without quotes keeps no white space at its ends
and does not look like one in quotes. -/
def Legible : EnvItem → Prop
  | blank t => (∀ c ∈ t, isWhitespace c = true) ∧ '\n' ∉ t
  | comment t => '\n' ∉ t
  | var name value quotes => (name ≠ [] ∧ Trimmed name ∧ name.head? ≠ some '#' ∧
      '=' ∉ name ∧ '\n' ∉ name) ∧ '\n' ∉ value ∧
      (quotes = .bare → Trimmed value ∧ unquoted value = value)

/-- The file of some lines. -/
def write (items : List EnvItem) : Str := items.flatMap fun i => i.text ++ ['\n']

end EnvItem

section Quotes

variable {quotes : EnvQuotes} {value : Str}

theorem getLast?_quoted (q : Char) (v : Str) : (q :: (v ++ [q])).getLast? = some q := by
  rw [← List.cons_append, List.getLast?_concat]

theorem unquoted_wrap (h : quotes = .bare → Trimmed value ∧ unquoted value = value) :
    unquoted (quotes.wrap value) = value := by
  cases quotes with
  | bare => exact (h rfl).2
  | double =>
    show unquoted ('"' :: (value ++ ['"'])) = value
    unfold unquoted
    rw [if_pos ⟨Or.inl ⟨rfl, getLast?_quoted _ _⟩, by simp⟩, List.tail_cons, List.dropLast_concat]
  | single =>
    show unquoted ('\'' :: (value ++ ['\''])) = value
    unfold unquoted
    rw [if_pos ⟨Or.inr ⟨rfl, getLast?_quoted _ _⟩, by simp⟩, List.tail_cons, List.dropLast_concat]

theorem trimmed_wrap (h : quotes = .bare → Trimmed value ∧ unquoted value = value) :
    Trimmed (quotes.wrap value) := by
  cases quotes with
  | bare => exact (h rfl).1
  | double | single =>
    refine ⟨fun c hc => ?_, fun c hc => ?_⟩
    · obtain rfl := Option.some.inj hc
      decide
    · obtain rfl := Option.some.inj ((getLast?_quoted _ _).symm.trans hc)
      decide

end Quotes

/-- A line of an environment file is read as what it says. -/
theorem envLine?_text {i : EnvItem} (h : i.Legible) :
    envLine? (withoutReturn i.text) = i.sets := by
  unfold envLine?
  dsimp only
  rw [trim_withoutReturn]
  cases i with
  | blank t =>
    rw [EnvItem.text, trim_of_white h.1]
    rfl
  | comment t => exact if_pos (Or.inr (head_trim_cons (by decide)))
  | var name value quotes =>
    obtain ⟨⟨hne, htrim, hhash, heq, -⟩, -, hbare⟩ := h
    have hwrap := trimmed_wrap hbare
    -- the name is at the front and the value, or the sign, at the end
    have hhead : (name ++ '=' :: quotes.wrap value).head? = name.head? := by
      cases name with
      | nil => exact absurd rfl hne
      | cons c cs => rfl
    have hline : Trimmed (name ++ '=' :: quotes.wrap value) := by
      refine ⟨fun c hc => htrim.head c (hhead ▸ hc), fun c hc => ?_⟩
      rw [List.getLast?_append, List.getLast?_cons] at hc
      cases hw : (quotes.wrap value).getLast? with
      | none =>
        rw [hw] at hc
        obtain rfl := Option.some.inj hc
        decide
      | some d =>
        rw [hw] at hc
        obtain rfl := Option.some.inj hc
        exact hwrap.last d hw
    rw [EnvItem.text, hline.trim_eq, if_neg, splitOnce_eq_some.mpr ⟨rfl, heq⟩, Option.map_some,
      htrim.trim_eq, hwrap.trim_eq, unquoted_wrap hbare]
    · rfl
    · rw [hhead]
      simp [hhash]

/-- A file of legible lines sets what they say. -/
theorem fileVars_write {items : List EnvItem} (h : ∀ i ∈ items, i.Legible) :
    fileVars (EnvItem.write items) = items.filterMap EnvItem.sets := by
  have hwhole : ∀ l ∈ items.map EnvItem.text, '\n' ∉ l := by
    intro l hl
    obtain ⟨i, hi, rfl⟩ := List.mem_map.mp hl
    have hleg := h i hi
    cases i with
    | blank t => exact hleg.2
    | comment t => exact fun hn => hleg (List.mem_of_ne_of_mem (by decide) hn)
    | var name value quotes =>
      obtain ⟨⟨-, -, -, -, hname⟩, hvalue, -⟩ := hleg
      intro hn
      rcases List.mem_append.mp hn with hn | hn
      · exact hname hn
      · have hwrap := List.mem_of_ne_of_mem (by decide) hn
        cases quotes with
        | bare => exact hvalue hwrap
        | double | single =>
          rcases List.mem_append.mp (List.mem_of_ne_of_mem (by decide) hwrap) with hv | hv
          · exact hvalue hv
          · exact absurd (List.mem_singleton.mp hv) (by decide)
  have hlines : lines (EnvItem.write items) = items.map fun i => withoutReturn i.text := by
    have hmap := lines_flatMap hwhole
    rw [List.flatMap_map, List.map_map] at hmap
    exact hmap
  unfold fileVars
  rw [hlines, List.filterMap_map]
  exact List.filterMap_congr fun i hi => envLine?_text (h i hi)

/-- **Variables that are saved in a file come back from it**, in any order, in any of the
quotes and with comments between them. -/
theorem saved_env {src : Sources} {svc : serviceShape.Rec} {ef : EnvironmentFile} {m : Vars}
    {items : List EnvItem} (hleg : ∀ i ∈ items, i.Legible)
    (hread : src.readToString ef.path = .ok (EnvItem.write items))
    (hsaved : (items.filterMap EnvItem.sets).Perm m.entries)
    (hfiles : svc.list .environmentFiles = [ef]) (hentries : svc.list .environment = [])
    (hunset : svc.list .unsetEnvironment = []) :
    ∃ env, resolveEnvironment src svc = .ok env ∧ ∀ k, env.get? k =
      (m.get? k).or (if k ∈ svc.list .passEnvironment then src.inherited k else none) := by
  have hvars : readVars src ef = some (items.filterMap EnvItem.sets) := by
    unfold readVars
    rw [hread, ← fileVars_write hleg]
  obtain ⟨path, e, ⟨before, f, after, he, -, hnone, -⟩, -⟩ | ⟨-, hok⟩ :=
    resolveEnvironment_cases src svc
  · -- the only file is there
    rw [hfiles] at he
    have hf : f ∈ [ef] := he ▸ List.mem_append_right before List.mem_cons_self
    rw [List.mem_singleton.mp hf, hvars] at hnone
    exact absurd hnone (by simp)
  · refine ⟨_, hok, fun k => ?_⟩
    have hlayer : fileLayer src svc = items.filterMap EnvItem.sets := by
      unfold fileLayer
      rw [hfiles, List.flatMap_singleton, hvars]
      rfl
    have hnodup : ((items.filterMap EnvItem.sets).map Prod.fst).Nodup :=
      (hsaved.map Prod.fst).nodup_iff.mpr m.nodup
    -- with distinct names the order does not matter
    have hget : IndexMap.last (items.filterMap EnvItem.sets) k = m.get? k := by
      rw [← IndexMap.get?_ofList]
      refine Option.ext fun v => ?_
      rw [← IndexMap.mem_entries, ← IndexMap.mem_entries, IndexMap.entries_ofList hnodup]
      exact hsaved.mem_iff
    rw [get?_resolveEnvironment hok]
    unfold serviceVar beforeEntries
    rw [hunset, hentries, hlayer, hget]
    rfl

/-- A file with a comment and two variables. -/
def savedItems : List EnvItem :=
  [.comment " saved".toList, .var ['B'] " #$A\"".toList .double, .var ['A'] [] .bare]

theorem saved_env_two : ∃ env, resolveEnvironment
      ⟨fun _ => some ['x'], fun _ => .ok (EnvItem.write savedItems)⟩
      (bareService.add .environmentFiles [⟨"/f".toList, false⟩]) = .ok env ∧
    ∀ k, env.get? k = (IndexMap.ofList [(['A'], []), (['B'], " #$A\"".toList)]).get? k := by
  have hbare : Trimmed ([] : Str) :=
    ⟨fun c hc => absurd hc (by simp), fun c hc => absurd hc (by simp)⟩
  have hname : ∀ c : Char, isWhitespace c = false → c ≠ '#' → c ≠ '=' → c ≠ '\n' →
      [c] ≠ [] ∧ Trimmed [c] ∧ [c].head? ≠ some '#' ∧ '=' ∉ [c] ∧ '\n' ∉ [c] := by
    intro c hc hhash heq hn
    refine ⟨by simp, ⟨?_, ?_⟩, by simpa using hhash, by simpa using heq.symm,
      by simpa using hn.symm⟩
    · rintro d hd
      obtain rfl := Option.some.inj hd
      exact hc
    · rintro d hd
      obtain rfl := Option.some.inj hd
      exact hc
  have hleg : ∀ i ∈ savedItems, i.Legible := by
    intro i hi
    simp only [savedItems, List.mem_cons, List.not_mem_nil, or_false] at hi
    rcases hi with rfl | rfl | rfl
    · show '\n' ∉ " saved".toList
      decide
    · exact ⟨hname 'B' (by decide) (by decide) (by decide) (by decide), by decide,
        fun h => absurd h (by decide)⟩
    · exact ⟨hname 'A' (by decide) (by decide) (by decide) (by decide), by decide,
        fun _ => ⟨hbare, by decide⟩⟩
  have hfiles : (bareService.add .environmentFiles [⟨"/f".toList, false⟩]).list .environmentFiles =
      [⟨"/f".toList, false⟩] := rfl
  have hread : (⟨fun _ => some ['x'], fun _ => .ok (EnvItem.write savedItems)⟩ : Sources).readToString
      (⟨"/f".toList, false⟩ : EnvironmentFile).path = .ok (EnvItem.write savedItems) := rfl
  obtain ⟨env, hok, hget⟩ := saved_env (m := .ofList [(['A'], []), (['B'], " #$A\"".toList)]) hleg
    hread (List.Perm.swap _ _ []) hfiles rfl rfl
  refine ⟨env, hok, fun k => ?_⟩
  rw [hget k]
  exact Option.or_none

end Systeml.Runtime
