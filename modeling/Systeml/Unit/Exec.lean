import Systeml.Unit.ServiceSection

/-!
# Command lines and environment entries

`ExecCommand::parse` takes the flag characters off a command line and splits the rest the
way a shell does; `parse_environment_line` splits its value the same way. A split has no
words only if there is nothing but blanks (`shellSplit_eq_nil`), because whatever else is
read opens a word.
-/

namespace Systeml.Unit

open Systeml.Lib

/-! ## Splitting into words -/

/-- What the scanner stands in. -/
inductive Quoting where
  | bare | single | double
  deriving DecidableEq, Repr

/-- What a backslash and a character stand for between double quotes. -/
def doubleQuoted (c : Char) : Str :=
  if c = '\\' then ['\\']
  else if c = '"' then ['"']
  else if c = 'n' then ['\n']
  else if c = 't' then ['\t']
  else if c = 'r' then ['\r']
  else ['\\', c]

/-- The loop over the characters. `cur` is the word that is being read, if `inToken`. -/
def shellScan : Quoting → Bool → Str → Str → Except BadReason (List Str)
  | .bare, inToken, cur, [] => .ok (if inToken then [cur] else [])
  | .bare, inToken, cur, c :: cs =>
    if c = ' ' ∨ c = '\t' then
      if inToken then (shellScan .bare false [] cs).map (cur :: ·)
      else shellScan .bare false cur cs
    else if c = '\\' then
      match cs with
      | [] => .error (.text "trailing backslash".toList)
      | n :: cs => shellScan .bare true (cur ++ [n]) cs
    else if c = '\'' then shellScan .single true cur cs
    else if c = '"' then shellScan .double true cur cs
    else shellScan .bare true (cur ++ [c]) cs
  -- a quote that is still open ends with the text
  | .single, _, cur, [] => .ok [cur]
  | .single, _, cur, c :: cs =>
    if c = '\'' then shellScan .bare true cur cs else shellScan .single true (cur ++ [c]) cs
  | .double, _, cur, [] => .ok [cur]
  | .double, _, cur, c :: cs =>
    if c = '"' then shellScan .bare true cur cs
    else if c = '\\' then
      match cs with
      | [] => .error (.text "trailing backslash in \"\"".toList)
      | n :: cs => shellScan .double true (cur ++ doubleQuoted n) cs
    else shellScan .double true (cur ++ [c]) cs

/-- Shell-style split with literal single quotes and escapes in double quotes. -/
def shellSplit (s : Str) : Except BadReason (List Str) := shellScan .bare false [] s

/-! ## `Exec*=` -/

/-- Flags in front of a command, with the white space behind each. `fuel` bounds their
number. -/
def stripFlagsLoop : Nat → ExecFlags → Str → ExecFlags × Str
  | 0, flags, rest => (flags, rest)
  | fuel + 1, flags, rest =>
    match rest with
    -- `!!` before `!`
    | '!' :: '!' :: r => stripFlagsLoop fuel { flags with ambientRaise := true } (trimStart r)
    | '!' :: r => stripFlagsLoop fuel { flags with raisePriv := true } (trimStart r)
    | '-' :: r => stripFlagsLoop fuel { flags with ignoreFailure := true } (trimStart r)
    | '+' :: r => stripFlagsLoop fuel { flags with fullPrivs := true } (trimStart r)
    | ':' :: r => stripFlagsLoop fuel { flags with noEnvSubst := true } (trimStart r)
    | '@' :: r => stripFlagsLoop fuel { flags with setArgv0 := true } (trimStart r)
    | _ => (flags, rest)

def stripFlags (s : Str) : ExecFlags × Str := stripFlagsLoop s.length {} s

/-- `ExecCommand::parse`. -/
def ExecCommand.parse (s : Str) : Except BadReason ExecCommand :=
  let raw := trim s
  if raw = [] then .error (.text "empty exec line".toList)
  else
    let (flags, rest) := stripFlags raw
    match shellSplit rest with
    | .error e => .error e
    | .ok [] => .error (.text "no command after flags".toList)
    | .ok (program :: args) =>
      if flags.setArgv0 then
        if args = [] then .error (.text "@flag requires explicit argv[0]".toList)
        else .ok ⟨raw, args, program, flags⟩
      else .ok ⟨raw, program :: args, program, flags⟩

/-! ## `Environment=` and `EnvironmentFile=` -/

/-- One `KEY=VALUE` word. -/
def parseEnvironmentEntry (p : Str) : Except BadReason (Str × Str) :=
  match splitOnce '=' p with
  | none => .error (.text ("missing = in environment entry ".toList ++ p))
  | some (k, v) =>
    if k = [] then .error (.text ("empty key in environment entry ".toList ++ p))
    else .ok (k, v)

/-- `parse_environment_line`. -/
def parseEnvironmentLine (s : Str) : Except BadReason (List (Str × Str)) :=
  match shellSplit s with
  | .error e => .error e
  | .ok pairs => pairs.mapM parseEnvironmentEntry

/-- `EnvironmentFile=`. A leading `-` makes a load failure non-fatal. -/
structure EnvironmentFile where
  path : Str
  isOptional : Bool
  deriving DecidableEq, Repr

/-- `EnvironmentFile::parse`. -/
def EnvironmentFile.parse (s : Str) : EnvironmentFile :=
  match trim s with
  | '-' :: rest => ⟨rest, true⟩
  | s => ⟨s, false⟩

/-! ## When there are no words -/

/-- A word that is open is read to its end. -/
theorem shellScan_open {q : Quoting} {inToken : Bool} {cur s : Str} {ws : List Str}
    (hopen : inToken = true) (h : shellScan q inToken cur s = .ok ws) : ws ≠ [] := by
  fun_induction shellScan q inToken cur s generalizing ws
  case case1 =>
    rw [← Except.ok.inj h, if_pos hopen]
    exact List.cons_ne_nil _ _
  case case2 =>
    -- a blank closes the word
    obtain ⟨rest, -, rfl⟩ := map_eq_ok h
    exact List.cons_ne_nil _ _
  case case3 hclosed _ => exact absurd hopen hclosed
  case case4 | case14 => exact absurd h (by simp)
  case case9 | case12 =>
    rw [← Except.ok.inj h]
    exact List.cons_ne_nil _ _
  case case5 ih | case6 ih | case7 ih | case8 ih | case10 ih | case11 ih | case13 ih
    | case15 ih | case16 ih => exact ih rfl h

/-- Outside of words, nothing comes of blanks, and only of them. -/
theorem shellScan_closed {q : Quoting} {inToken : Bool} {cur s : Str} (hq : q = .bare)
    (hclosed : inToken = false) :
    shellScan q inToken cur s = .ok [] ↔ ∀ c ∈ s, c = ' ' ∨ c = '\t' := by
  -- a character that opens a word, or is refused, is no blank
  have hother : ∀ {q : Quoting} {cur : Str} {c : Char} {cs t : Str},
      ¬ (c = ' ' ∨ c = '\t') →
      (shellScan q true cur t = .ok [] ↔ ∀ c' ∈ c :: cs, c' = ' ' ∨ c' = '\t') := by
    intro q cur c cs t hc
    constructor
    · intro h
      exact absurd rfl (shellScan_open rfl h)
    · intro h
      exact absurd (h c List.mem_cons_self) hc
  fun_induction shellScan q inToken cur s
  case case1 =>
    rw [hclosed]
    exact ⟨fun _ c hc => absurd hc List.not_mem_nil, fun _ => rfl⟩
  case case2 => exact absurd hclosed (by simp)
  case case3 hblank _ ih =>
    refine (ih rfl rfl).trans ?_
    rw [List.forall_mem_cons]
    exact ⟨fun h => ⟨hblank, h⟩, fun h => h.2⟩
  case case4 hc =>
    constructor
    · intro h
      exact absurd h (by simp)
    · intro h
      exact absurd (h _ List.mem_cons_self) hc
  case case5 hc _ => exact hother hc
  case case6 hc _ _ => exact hother hc
  case case7 hc _ _ _ => exact hother hc
  case case8 hc _ _ _ _ => exact hother hc
  all_goals exact absurd hq (by simp)

/-- There are no words only where there are only blanks. -/
theorem shellSplit_eq_nil {s : Str} :
    shellSplit s = .ok [] ↔ ∀ c ∈ s, c = ' ' ∨ c = '\t' := shellScan_closed rfl rfl

theorem mapM_eq_nil {α β ε : Type} {f : α → Except ε β} {xs : List α} :
    xs.mapM f = .ok [] ↔ xs = [] := by
  cases xs with
  | nil => exact ⟨fun _ => rfl, fun _ => rfl⟩
  | cons x xs =>
    constructor
    · intro h
      rw [List.mapM_cons] at h
      cases hx : f x with
      | error e =>
        rw [hx] at h
        exact absurd h (by simp [bind, Except.bind])
      | ok y =>
        cases hxs : xs.mapM f with
        | error e =>
          rw [hx, hxs] at h
          exact absurd h (by simp [bind, Except.bind])
        | ok ys =>
          rw [hx, hxs] at h
          exact absurd h (by simp [bind, Except.bind, pure, Except.pure])
    · intro h
      exact absurd h (List.cons_ne_nil x xs)

theorem parseEnvironmentLine_eq_nil {s : Str} :
    parseEnvironmentLine s = .ok [] ↔ ∀ c ∈ s, c = ' ' ∨ c = '\t' := by
  rw [← shellSplit_eq_nil]
  unfold parseEnvironmentLine
  cases hs : shellSplit s with
  | error e => simp
  | ok ws =>
    show ws.mapM parseEnvironmentEntry = .ok [] ↔ Except.ok ws = .ok []
    rw [mapM_eq_nil, Except.ok.injEq]

end Systeml.Unit
