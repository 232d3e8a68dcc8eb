import Systeml.Unit.ServiceTable

/-!
# The environment of a child

`expand_vars` goes over a text once and puts the values of variables in the place of
references to them; `resolve_environment` collects the variables of a service. A text is a
sequence of segments, each literal or a reference, and what it expands to is what its
segments stand for (`expandVars_segments`): a value is written and not read again.
-/

namespace Systeml.Runtime

open Systeml.Lib Systeml.Unit

/-! ## Expansion -/

/-- A character that a name after `$` begins with. -/
def isNameStart (c : Char) : Bool := c == '_' || c.isAlpha

/-- A character of a name after `$`. -/
def isNameChar (c : Char) : Bool := c == '_' || isAsciiAlphanumeric c

/-- The variables of a child. The code keeps them sorted; nothing depends on their order. -/
abbrev Vars : Type := IndexMap Str Str

/-- What a reference is replaced with: an unknown variable is empty. -/
def valueOf (env : Vars) (name : Str) : Str := (env.get? name).getD []

/-- `expand_vars`. -/
def expandVars (env : Vars) : Str → Str
  | [] => []
  | c :: cs =>
    if c ≠ '$' then c :: expandVars env cs
    else match cs with
      | [] => ['$']
      | d :: ds =>
        if d = '{' then
          -- without a closing brace the name goes on to the end
          valueOf env (ds.takeWhile (· ≠ '}')) ++ expandVars env (ds.dropWhile (· ≠ '}')).tail
        else if isNameStart d then
          valueOf env ((d :: ds).takeWhile isNameChar) ++
            expandVars env ((d :: ds).dropWhile isNameChar)
        else '$' :: expandVars env (d :: ds)
termination_by s => s.length
decreasing_by
  · simp
  · have := (List.dropWhile_suffix (· ≠ '}') (l := ds)).length_le
    have := (ds.dropWhile (· ≠ '}')).length_tail
    simp only [List.length_cons]
    omega
  · have := (List.dropWhile_suffix isNameChar (l := d :: ds)).length_le
    simp only [List.length_cons] at *
    omega
  · simp

section Scan

variable {env : Vars} {c : Char} {cs : Str}

@[simp] theorem expandVars_nil : expandVars env [] = [] := by
  rw [expandVars]

theorem expandVars_literal (hc : c ≠ '$') :
    expandVars env (c :: cs) = c :: expandVars env cs := by
  rw [expandVars.eq_def]
  simp [hc]

theorem expandVars_braced : expandVars env ('$' :: '{' :: cs) =
    valueOf env (cs.takeWhile (· ≠ '}')) ++ expandVars env (cs.dropWhile (· ≠ '}')).tail := by
  rw [expandVars.eq_def]
  simp

theorem expandVars_name (hc : isNameStart c = true) : expandVars env ('$' :: c :: cs) =
    valueOf env ((c :: cs).takeWhile isNameChar) ++
      expandVars env ((c :: cs).dropWhile isNameChar) := by
  have hbrace : c ≠ '{' := by
    rintro rfl
    exact absurd hc (by decide)
  rw [expandVars.eq_def]
  simp only [ne_eq, not_true_eq_false, if_false, if_neg hbrace, hc, if_true]

end Scan

/-! ## Segments -/

/-- What a text is made of. -/
inductive Segment where
  | literal (text : Str)
  /-- `${NAME}`. -/
  | braced (name : Str)
  /-- `$NAME`. -/
  | plain (name : Str)
  deriving DecidableEq, Repr

namespace Segment

/-- How a segment is written. -/
def text : Segment → Str
  | literal t => t
  | braced name => '$' :: '{' :: (name ++ ['}'])
  | plain name => '$' :: name

/-- What a segment stands for. -/
def value (env : Vars) : Segment → Str
  | literal t => t
  | braced name => valueOf env name
  | plain name => valueOf env name

/-- A segment that can be told from `rest` behind it. -/
def Legible (rest : Str) : Segment → Prop
  | literal t => '$' ∉ t
  | braced name => '}' ∉ name
  | plain name => name.head?.any isNameStart = true ∧ (∀ c ∈ name, isNameChar c = true) ∧
      rest.head?.any isNameChar = false

instance (rest : Str) : DecidablePred (Legible rest)
  | literal t => inferInstanceAs (Decidable ('$' ∉ t))
  | braced name => inferInstanceAs (Decidable ('}' ∉ name))
  | plain name => decidable_of_iff (name.head?.any isNameStart = true ∧
      name.all isNameChar = true ∧ rest.head?.any isNameChar = false)
      (by rw [Legible, List.all_eq_true])

end Segment

/-- Each segment can be told from those behind it. -/
def Readable : List Segment → Prop
  | [] => True
  | s :: ss => s.Legible (ss.flatMap Segment.text) ∧ Readable ss

instance decidableReadable : DecidablePred Readable
  | [] => inferInstanceAs (Decidable True)
  | s :: ss =>
    have := decidableReadable ss
    inferInstanceAs (Decidable (s.Legible (ss.flatMap Segment.text) ∧ Readable ss))

theorem expandVars_text {env : Vars} {rest : Str} : ∀ {t : Str}, '$' ∉ t →
    expandVars env (t ++ rest) = t ++ expandVars env rest
  | [], _ => rfl
  | c :: t, h => by
    obtain ⟨hc, ht⟩ := List.ne_and_not_mem_of_not_mem_cons h
    rw [List.cons_append, expandVars_literal hc.symm, expandVars_text ht]
    rfl

/-- One segment is replaced, and the scan goes on behind it. -/
theorem expandVars_segment {env : Vars} {rest : Str} {s : Segment} (h : s.Legible rest) :
    expandVars env (s.text ++ rest) = s.value env ++ expandVars env rest := by
  cases s with
  | literal t => exact expandVars_text h
  | braced name =>
    have hname : ∀ c ∈ name, decide (c ≠ '}') = true := by
      intro c hc
      rw [decide_eq_true_eq]
      rintro rfl
      exact h hc
    obtain ⟨htake, hdrop⟩ := span_append ('}' :: rest) hname (by
      intro c hc
      obtain rfl := Option.some.inj hc
      rfl)
    have htext : (Segment.braced name).text ++ rest = '$' :: '{' :: (name ++ '}' :: rest) := by
      show '$' :: '{' :: (name ++ ['}'] ++ rest) = _
      rw [List.append_assoc]
      rfl
    rw [htext, expandVars_braced, htake, hdrop]
    rfl
  | plain name =>
    obtain ⟨hstart, hname, hrest⟩ := h
    obtain ⟨htake, hdrop⟩ := span_append rest hname (by
      intro c hc
      rwa [hc] at hrest)
    cases name with
    | nil => exact absurd hstart (by simp)
    | cons d ds =>
      show expandVars env ('$' :: d :: (ds ++ rest)) = _
      rw [expandVars_name hstart]
      show valueOf env ((d :: ds ++ rest).takeWhile isNameChar) ++
        expandVars env ((d :: ds ++ rest).dropWhile isNameChar) = _
      rw [htake, hdrop]
      rfl

/-- **Expansion is substitution in one pass.** -/
theorem expandVars_segments (env : Vars) (segments : List Segment) (h : Readable segments) :
    expandVars env (segments.flatMap Segment.text) = segments.flatMap (Segment.value env) := by
  induction segments with
  | nil => exact expandVars_nil
  | cons s ss ih =>
    obtain ⟨hs, hss⟩ := h
    rw [List.flatMap_cons, expandVars_segment hs, ih hss, List.flatMap_cons]

/-- Values that look like references stay what they are. -/
theorem expandVars_segments_references :
    expandVars ((IndexMap.empty.insert "X".toList "${Y}".toList).insert "Y".toList "$X".toList)
      "a$X/${Y}-$Y${Z}".toList = "a${Y}/$X-$X".toList :=
  expandVars_segments _ [.literal ['a'], .plain ['X'], .literal ['/'], .braced ['Y'],
    .literal ['-'], .plain ['Y'], .braced ['Z']]
    (by decide)

/-! ## Collecting the variables -/

/-- Why a file cannot be read. -/
inductive ReadError where
  | notFound | other
  deriving DecidableEq, Repr

/-- What the variables are collected from. -/
structure Sources where
  /-- The variables of the manager that are text. -/
  inherited : Str → Option Str
  readToString : Str → Except ReadError Str

/-- A value without the quotes around it. -/
def unquoted (v : Str) : Str :=
  if ((v.head? = some '"' ∧ v.getLast? = some '"') ∨ (v.head? = some '\'' ∧ v.getLast? = some '\'')) ∧
      2 ≤ v.length then v.tail.dropLast
  else v

/-- One line of an environment file. -/
def envLine (env : Vars) (line : Str) : Vars :=
  let trimmed := trim line
  if trimmed = [] ∨ trimmed.head? = some '#' then env
  else match splitOnce '=' trimmed with
    | none => env
    | some (k, v) => env.insert (trim k) (unquoted (trim v))

/-- `load_env_file`; the error names the file. -/
def loadEnvFile (src : Sources) (env : Vars) (ef : EnvironmentFile) : Except (Str × ReadError) Vars :=
  match src.readToString ef.path with
  | .ok contents => .ok ((lines contents).foldl envLine env)
  | .error e =>
    if ef.isOptional ∧ e = .notFound then .ok env else .error (ef.path, e)

/-- A variable that is passed on from the manager. -/
def passOn (src : Sources) (env : Vars) (k : Str) : Vars :=
  match src.inherited k with
  | some v => env.insert k v
  | none => env

/-- `resolve_environment`. The last writer of a variable wins. -/
def resolveEnvironment (src : Sources) (svc : serviceShape.Rec) :
    Except (Str × ReadError) Vars :=
  match (svc.list .environmentFiles).foldlM (loadEnvFile src)
      ((svc.list .passEnvironment).foldl (passOn src) .empty) with
  | .error e => .error e
  | .ok env =>
    let env := (svc.list .environment).foldl
      (fun env entry => env.insert entry.1 (expandVars env entry.2)) env
    .ok ((svc.list .unsetEnvironment).foldl IndexMap.erase env)

end Systeml.Runtime
