import Systeml.Unit.Exec

/-!
# Quoting

Which texts `shell_split` refuses, and how to write words so that it reads them back.
Where a scan stands is a fold over the characters (`endOf`), apart from the words that are
collected on the way. The loop over a quoted text ends silently at the end of the input, so
what is refused is a backslash at the end and nothing else (`shellScan_error_iff`).
-/

namespace Systeml.Unit

open Systeml.Lib

/-! ## Where a scan stands -/

/-- The quotes around a character, and whether a backslash waits for it. -/
structure Stand where
  quoting : Quoting
  escape : Bool
  deriving DecidableEq, Repr

/-- Over one character. Between single quotes a backslash is one like others. -/
def Stand.next (p : Stand) (c : Char) : Stand :=
  if p.escape then ⟨p.quoting, false⟩
  else match p.quoting with
    | .bare =>
      if c = '\\' then ⟨.bare, true⟩
      else if c = '\'' then ⟨.single, false⟩
      else if c = '"' then ⟨.double, false⟩
      else p
    | .single => if c = '\'' then ⟨.bare, false⟩ else p
    | .double =>
      if c = '"' then ⟨.bare, false⟩
      else if c = '\\' then ⟨.double, true⟩
      else p

/-- Where a scan ends. -/
def endOf (s : Str) : Stand := s.foldl Stand.next ⟨.bare, false⟩

theorem map_error_iff {α β ε : Type} {f : α → β} {x : Except ε α} :
    (∃ e, x.map f = .error e) ↔ ∃ e, x = .error e := by
  cases x with
  | error e => exact ⟨fun _ => ⟨e, rfl⟩, fun _ => ⟨e, rfl⟩⟩
  | ok a =>
    constructor
    · intro h
      obtain ⟨e, he⟩ := h
      exact absurd he (by simp [Except.map])
    · intro h
      obtain ⟨e, he⟩ := h
      exact absurd he (by simp)

/-- The scan fails when a backslash is left without its character. -/
theorem shellScan_error_iff {q : Quoting} {inToken : Bool} {cur s : Str} :
    (∃ e, shellScan q inToken cur s = .error e) ↔
      (s.foldl Stand.next ⟨q, false⟩).escape = true := by
  fun_induction shellScan q inToken cur s
  case case1 | case9 | case12 => simp
  case case2 hblank ih =>
    rw [map_error_iff, ih, List.foldl_cons]
    rcases hblank with rfl | rfl <;> rfl
  case case3 hblank _ ih =>
    rw [ih, List.foldl_cons]
    rcases hblank with rfl | rfl <;> rfl
  -- a backslash at the end
  case case4 | case14 => simp [Stand.next]
  -- a character that a backslash stands before
  case case5 ih | case15 ih =>
    rw [ih]
    simp [Stand.next]
  -- a quote that opens or closes
  case case6 ih | case7 ih | case10 ih | case13 ih =>
    rw [ih]
    simp [Stand.next]
  case case8 hslash hsingle hdouble ih =>
    rw [ih, List.foldl_cons]
    simp [Stand.next, hslash, hsingle, hdouble]
  case case11 hsingle ih =>
    rw [ih, List.foldl_cons]
    simp [Stand.next, hsingle]
  case case16 hdouble hslash ih =>
    rw [ih, List.foldl_cons]
    simp [Stand.next, hslash, hdouble]

theorem shellSplit_error_iff {s : Str} :
    (∃ e, shellSplit s = .error e) ↔ (endOf s).escape = true := shellScan_error_iff

/-! ## Unbalanced quoting -/

/-- Nothing whose quoting is unbalanced passes. -/
structure RejectsUnbalanced (s : Str) : Prop where
  split : (∃ e, shellSplit s = .error e) ↔
    (endOf s).quoting ≠ .bare ∨ (endOf s).escape = true
  environment : (endOf s).quoting ≠ .bare → ∃ e, parseEnvironmentLine s = .error e
  exec : ∀ raw, (stripFlags (trim raw)).2 = s → (endOf s).quoting ≠ .bare →
    ∃ e, ExecCommand.parse raw = .error e

theorem parseEnvironmentLine_of_error {s : Str} (h : ∃ e, shellSplit s = .error e) :
    ∃ e, parseEnvironmentLine s = .error e := by
  obtain ⟨e, he⟩ := h
  unfold parseEnvironmentLine
  rw [he]
  exact ⟨e, rfl⟩

theorem parse_of_error {raw : Str} (h : ∃ e, shellSplit (stripFlags (trim raw)).2 = .error e) :
    ∃ e, ExecCommand.parse raw = .error e := by
  obtain ⟨e, he⟩ := h
  unfold ExecCommand.parse
  simp only [he]
  split
  next => exact ⟨_, rfl⟩
  next => exact ⟨e, rfl⟩

/-- **When unbalanced quoting is refused.** A text that ends between quotes is refused only
for a backslash at its end. -/
theorem rejectsUnbalanced_iff (s : Str) :
    RejectsUnbalanced s ↔ (endOf s).quoting = .bare ∨ (endOf s).escape = true := by
  constructor
  · intro h
    by_cases hq : (endOf s).quoting = .bare
    · exact Or.inl hq
    · exact Or.inr (shellSplit_error_iff.mp (h.split.mpr (Or.inl hq)))
  · intro h
    have hrefused : (endOf s).quoting ≠ .bare → ∃ e, shellSplit s = .error e := by
      intro hq
      exact shellSplit_error_iff.mpr (h.resolve_left hq)
    refine ⟨?_, fun hq => parseEnvironmentLine_of_error (hrefused hq), ?_⟩
    · constructor
      · intro he
        exact Or.inr (shellSplit_error_iff.mp he)
      · intro hend
        rcases hend with hq | he
        · exact hrefused hq
        · exact shellSplit_error_iff.mpr he
    · intro raw hrest hq
      apply parse_of_error
      rw [hrest]
      exact hrefused hq

/-- A single quote that is not closed is accepted. -/
theorem open_quote_accepted : ¬ ∀ s, RejectsUnbalanced s := by
  intro h
  have hsplit := (h "'a b".toList).split.mpr (Or.inl (by decide))
  rw [shellSplit_error_iff] at hsplit
  exact absurd hsplit (by decide)

/-! ## Writing words -/

/-- A character between double quotes. -/
def escapeQuoted (c : Char) : Str :=
  if c = '\\' then ['\\', '\\'] else if c = '"' then ['\\', '"'] else [c]

/-- A word in double quotes. -/
def quote (w : Str) : Str := '"' :: (w.flatMap escapeQuoted ++ ['"'])

/-- Words in double quotes, with spaces between them. -/
def quoteAll (ws : List Str) : Str := [' '].intercalate (ws.map quote)

section Scan

variable {inToken : Bool} {cur cs : Str} {c : Char}

theorem shellScan_blank : shellScan .bare true cur (' ' :: cs) =
    (shellScan .bare false [] cs).map (cur :: ·) := by
  rw [shellScan.eq_def]
  simp

theorem shellScan_opening : shellScan .bare inToken cur ('"' :: cs) =
    shellScan .double true cur cs := by
  rw [shellScan.eq_def]
  simp

theorem shellScan_closing : shellScan .double inToken cur ('"' :: cs) =
    shellScan .bare true cur cs := by
  rw [shellScan.eq_def]
  simp

theorem shellScan_escaped : shellScan .double inToken cur ('\\' :: c :: cs) =
    shellScan .double true (cur ++ doubleQuoted c) cs := by
  rw [shellScan.eq_def]
  simp

theorem shellScan_literal (hquote : c ≠ '"') (hslash : c ≠ '\\') :
    shellScan .double inToken cur (c :: cs) = shellScan .double true (cur ++ [c]) cs := by
  rw [shellScan.eq_def]
  simp [hquote, hslash]

end Scan

/-- What is behind the opening quote is read to the closing one. -/
theorem shellScan_quoted : ∀ (w cur rest : Str),
    shellScan .double true cur (w.flatMap escapeQuoted ++ '"' :: rest) =
      shellScan .bare true (cur ++ w) rest
  | [], cur, rest => by
    rw [List.flatMap_nil, List.nil_append, List.append_nil, shellScan_closing]
  | c :: w, cur, rest => by
    have ih := shellScan_quoted w (cur ++ [c]) rest
    rw [List.append_assoc] at ih
    rw [List.flatMap_cons, List.append_assoc]
    unfold escapeQuoted
    by_cases hslash : c = '\\'
    · subst hslash
      exact shellScan_escaped.trans ih
    by_cases hquote : c = '"'
    · subst hquote
      exact shellScan_escaped.trans ih
    rw [if_neg hslash, if_neg hquote]
    exact (shellScan_literal hquote hslash).trans ih

theorem shellScan_quote (w rest : Str) :
    shellScan .bare false [] (quote w ++ rest) = shellScan .bare true w rest := by
  unfold quote
  rw [List.cons_append, List.append_assoc, List.singleton_append, shellScan_opening]
  exact shellScan_quoted w [] rest

theorem quoteAll_cons (w v : Str) (ws : List Str) :
    quoteAll (w :: v :: ws) = quote w ++ ' ' :: quoteAll (v :: ws) := by
  unfold quoteAll
  rw [List.map_cons, List.map_cons, List.intercalate_cons_cons]
  simp

theorem shellSplit_quoteAll : ∀ (w : Str) (ws : List Str),
    shellSplit (quoteAll (w :: ws)) = .ok (w :: ws)
  | w, [] => by
    have h := shellScan_quote w []
    rw [List.append_nil] at h
    simpa [shellSplit, quoteAll, shellScan] using h
  | w, v :: ws => by
    have ih := shellSplit_quoteAll v ws
    unfold shellSplit at ih ⊢
    rw [quoteAll_cons, shellScan_quote, shellScan_blank, ih]
    rfl

theorem getLast_quote (w : Str) : (quote w).getLast? = some '"' := by
  unfold quote
  rw [← List.cons_append, List.getLast?_concat]

theorem getLast_quoteAll : ∀ (w : Str) (ws : List Str),
    (quoteAll (w :: ws)).getLast? = some '"'
  | w, [] => by simp [quoteAll, getLast_quote]
  | w, v :: ws => by
    rw [quoteAll_cons, List.getLast?_append, List.getLast?_cons, getLast_quoteAll v ws]
    rfl

/-- Quoted words begin and end with a quote, so there is nothing to trim, -/
theorem trim_quoteAll (w : Str) (ws : List Str) : trim (quoteAll (w :: ws)) = quoteAll (w :: ws) := by
  have hhead : ∃ t, quoteAll (w :: ws) = '"' :: t := by
    cases ws with
    | nil => exact ⟨_, rfl⟩
    | cons v ws => exact ⟨_, quoteAll_cons w v ws⟩
  obtain ⟨t, ht⟩ := hhead
  refine Trimmed.trim_eq ⟨?_, ?_⟩
  · intro c hc
    rw [ht] at hc
    obtain rfl := Option.some.inj hc
    rfl
  · intro c hc
    rw [getLast_quoteAll] at hc
    obtain rfl := Option.some.inj hc
    rfl

/-- and no flag in front of them. -/
theorem stripFlags_quote (t : Str) : stripFlags ('"' :: t) = ({}, '"' :: t) := rfl

/-- **Every command line can be written.** -/
theorem parse_quoteAll (program : Str) (args : List Str) :
    ExecCommand.parse (quoteAll (program :: args)) =
      .ok ⟨quoteAll (program :: args), program :: args, program, {}⟩ := by
  have hsplit := shellSplit_quoteAll program args
  have hflags : stripFlags (quoteAll (program :: args)) = ({}, quoteAll (program :: args)) := by
    cases args with
    | nil => exact stripFlags_quote _
    | cons v ws =>
      rw [quoteAll_cons]
      exact stripFlags_quote _
  have hne : quoteAll (program :: args) ≠ [] := by
    intro he
    have hlast := getLast_quoteAll program args
    rw [he] at hlast
    exact absurd hlast (by simp)
  unfold ExecCommand.parse
  simp only [trim_quoteAll, if_neg hne, hflags, hsplit]
  rfl

end Systeml.Unit
