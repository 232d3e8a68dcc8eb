import Systeml.Journal.Follow
import Mathlib.Data.List.TakeWhile

/-!
# Logging a stream of a service

The task behind a stream that goes to the journal: it reads the pipe line by line and
appends each line with a timestamp in front. Lines are texts, so a line that is not
UTF-8 ends the loop like a failed read does, and the rest of the stream is not read
(`loggerLoop_invalid`). Every line is kept exactly when every line is UTF-8; a carriage
return in front of the newline is taken for part of the line ending (`logger_lossless_iff`).
-/

namespace Systeml.Journal

open Systeml.Lib

/-- What `Lines::next_line` returns. -/
inductive NextLine where
  | line (text : Str)
  | eof
  | invalidData
  deriving DecidableEq, Repr

/-- The line without its ending, `\n` or `\r\n`. -/
def withoutEnding (text : Str) : Str :=
  match stripSuffix text "\n".toList with
  | some t => (stripSuffix t "\r".toList).getD t
  | none => text

/-- The bytes of the next line, up to and with its newline, and what is behind. -/
def readUntilNewline (s : List UInt8) : List UInt8 × List UInt8 :=
  (s.takeWhile (· ≠ newline) ++ (s.dropWhile (· ≠ newline)).take 1,
    (s.dropWhile (· ≠ newline)).drop 1)

/-- `Lines::next_line` on what is left of the stream. -/
def nextLine (s : List UInt8) : NextLine × List UInt8 :=
  if s = [] then (.eof, [])
  else
    match fromUtf8 (readUntilNewline s).1 with
    | some text => (.line (withoutEnding text), (readUntilNewline s).2)
    | none => (.invalidData, (readUntilNewline s).2)

/-- How the logger ends. -/
inductive Exit where
  | openFailed
  | writeFailed
  | endOfStream
  | readFailed
  deriving DecidableEq, Repr

/-- What a logger has appended when it ends, and what it has not read. -/
structure Logged where
  entries : List Str
  unread : List UInt8
  exit : Exit
  deriving DecidableEq, Repr

/-- `format!("{ts} {line}\n")`. -/
def entry (ts line : Str) : Str := ts ++ ' ' :: (line ++ "\n".toList)

theorem readUntilNewline_length {s : List UInt8} (h : s ≠ []) :
    (readUntilNewline s).2.length < s.length := by
  have hsplit := congrArg List.length (List.takeWhile_append_dropWhile (p := (· ≠ newline)) (l := s))
  have hpos := List.length_pos_iff.mpr h
  simp only [readUntilNewline, List.length_append, List.length_drop] at hsplit ⊢
  omega

theorem nextLine_length {s rest : List UInt8} {text : Str} (h : nextLine s = (.line text, rest)) :
    rest.length < s.length := by
  unfold nextLine at h
  split at h
  next => exact absurd h (by simp)
  next hne =>
    split at h
    next =>
      obtain ⟨-, rfl⟩ := Prod.mk.inj h
      exact readUntilNewline_length hne
    next => exact absurd h (by simp)

/-- The loop, with `n` lines logged so far. `stamp n` is the timestamp of line `n`, and
`writes n` says whether its write succeeds. -/
def loggerLoop (stamp : Nat → Str) (writes : Nat → Bool) (n : Nat) (s : List UInt8) : Logged :=
  match _h : nextLine s with
  | (.eof, rest) => ⟨[], rest, .endOfStream⟩
  | (.invalidData, rest) => ⟨[], rest, .readFailed⟩
  | (.line text, rest) =>
    if writes n then
      let r := loggerLoop stamp writes (n + 1) rest
      { r with entries := entry (stamp n) text :: r.entries }
    else ⟨[], rest, .writeFailed⟩
termination_by s.length
decreasing_by exact nextLine_length ‹_›

/-- The task: open the file of the unit and stream, then log until the loop ends. -/
def spawnLoggerTask (stamp : Nat → Str) (opens : Bool) (writes : Nat → Bool) (s : List UInt8) :
    Logged :=
  if opens then loggerLoop stamp writes 0 s else ⟨[], s, .openFailed⟩

/-! ## The lines of a stream -/

/-- The lines of a stream, each with its newline; the last one may lack it. -/
def streamLines (s : List UInt8) : List (List UInt8) :=
  (completeLines newline s).map (· ++ [newline]) ++
    if restLine newline s = [] then [] else [restLine newline s]

/-- The first line is the one that is read next. -/
theorem streamLines_eq {s : List UInt8} (h : s ≠ []) :
    streamLines s = (readUntilNewline s).1 :: streamLines (readUntilNewline s).2 := by
  have hnot : newline ∉ s.takeWhile (· ≠ newline) := fun hm => by
    simpa using List.mem_takeWhile_imp hm
  have hsplit := List.takeWhile_append_dropWhile (p := (· ≠ newline)) (l := s)
  unfold readUntilNewline
  cases hd : s.dropWhile (· ≠ newline) with
  | nil =>
    rw [hd, List.append_nil] at hsplit
    have hcut := cut_of_notMem hnot
    rw [hsplit] at hcut
    simp only [streamLines, completeLines, restLine, hcut, hsplit, List.take_nil, List.append_nil,
      List.drop_nil, List.map_nil, List.nil_append]
    rw [if_neg h]
    rfl
  | cons x rest =>
    have hx : x = newline := by
      have := List.head?_dropWhile_not (· ≠ newline) s
      rw [hd] at this
      simpa using this
    subst hx
    have hcut := cut_append_sep rest hnot
    rw [hd] at hsplit
    rw [hsplit] at hcut
    simp only [streamLines, completeLines, restLine, hcut, List.map_cons, List.cons_append,
      List.take_succ_cons, List.take_zero, List.drop_succ_cons, List.drop_zero]

/-! ## What is kept -/

/-- The stream has been read to its end, and there is one entry for each of its lines,
in order: its timestamp and the text of the line without its ending, or any text for a
line that is not UTF-8. -/
structure Lossless (ending : Str → Str) (stamp : Nat → Str) (s : List UInt8) (r : Logged) :
    Prop where
  exit : r.exit = .endOfStream
  unread : r.unread = []
  count : r.entries.length = (streamLines s).length
  entries : ∀ i raw, (streamLines s)[i]? = some raw → ∃ line,
    r.entries[i]? = some (entry (stamp i) line) ∧ ∀ t, fromUtf8 raw = some t → line = ending t

/-- Every line of the stream is UTF-8. -/
def LinesUtf8 (s : List UInt8) : Prop := ∀ raw ∈ streamLines s, ∃ t, fromUtf8 raw = some t

theorem nextLine_some {s : List UInt8} {t : Str} (hne : s ≠ [])
    (h : fromUtf8 (readUntilNewline s).1 = some t) :
    nextLine s = (.line (withoutEnding t), (readUntilNewline s).2) := by
  unfold nextLine
  rw [if_neg hne, h]

theorem nextLine_none {s : List UInt8} (hne : s ≠ [])
    (h : fromUtf8 (readUntilNewline s).1 = none) :
    nextLine s = (.invalidData, (readUntilNewline s).2) := by
  unfold nextLine
  rw [if_neg hne, h]

section Loop

variable {stamp : Nat → Str} {writes : Nat → Bool}

theorem loggerLoop_nil (n : Nat) : loggerLoop stamp writes n [] = ⟨[], [], .endOfStream⟩ := by
  rw [loggerLoop]
  rfl

/-- A line that is UTF-8 is logged, and the loop goes on. -/
theorem loggerLoop_some (hw : ∀ i, writes i = true) {n : Nat} {s : List UInt8} {t : Str}
    (hne : s ≠ []) (h : fromUtf8 (readUntilNewline s).1 = some t) :
    loggerLoop stamp writes n s =
      { loggerLoop stamp writes (n + 1) (readUntilNewline s).2 with
        entries := entry (stamp n) (withoutEnding t) ::
          (loggerLoop stamp writes (n + 1) (readUntilNewline s).2).entries } := by
  have hnext := nextLine_some hne h
  rw [loggerLoop]
  split
  next he =>
    rw [hnext] at he
    exact absurd he (by simp)
  next he =>
    rw [hnext] at he
    exact absurd he (by simp)
  next he =>
    rw [hnext] at he
    obtain ⟨htext, rfl⟩ := Prod.mk.inj he
    obtain rfl := NextLine.line.inj htext
    rw [if_pos (hw n)]

/-- One that is not ends the loop. -/
theorem loggerLoop_none {n : Nat} {s : List UInt8} (hne : s ≠ [])
    (h : fromUtf8 (readUntilNewline s).1 = none) :
    loggerLoop stamp writes n s = ⟨[], (readUntilNewline s).2, .readFailed⟩ := by
  have hnext := nextLine_none hne h
  rw [loggerLoop]
  split
  next he =>
    rw [hnext] at he
    exact absurd he (by simp)
  next he =>
    rw [hnext] at he
    rw [← (Prod.mk.inj he).2]
  next he =>
    rw [hnext] at he
    exact absurd he (by simp)

/-- The lines of a stream of UTF-8 lines, numbered from `n`. -/
theorem loggerLoop_valid (hw : ∀ i, writes i = true) (s : List UInt8) (n : Nat)
    (hs : LinesUtf8 s) :
    (loggerLoop stamp writes n s).exit = .endOfStream ∧
      (loggerLoop stamp writes n s).unread = [] ∧
      (loggerLoop stamp writes n s).entries.length = (streamLines s).length ∧
      ∀ i raw t, (streamLines s)[i]? = some raw → fromUtf8 raw = some t →
        (loggerLoop stamp writes n s).entries[i]? =
          some (entry (stamp (n + i)) (withoutEnding t)) := by
  induction hl : s.length using Nat.strongRecOn generalizing s n with
  | _ len ih =>
    by_cases hne : s = []
    · subst hne
      rw [loggerLoop_nil]
      exact ⟨rfl, rfl, rfl, fun i raw t h _ => absurd h (by simp [streamLines])⟩
    unfold LinesUtf8 at hs
    rw [streamLines_eq hne, List.forall_mem_cons] at hs
    obtain ⟨⟨t, ht⟩, hrest⟩ := hs
    have hlt := readUntilNewline_length hne
    obtain ⟨hexit, hunread, hcount, hentries⟩ := ih _ (hl ▸ hlt) _ (n + 1) hrest rfl
    rw [loggerLoop_some hw hne ht, streamLines_eq hne]
    refine ⟨hexit, hunread, congrArg Nat.succ hcount, fun i raw t' hi ht' => ?_⟩
    cases i with
    | zero =>
      obtain rfl : (readUntilNewline s).1 = raw := by simpa using hi
      obtain rfl := Option.some.inj (ht.symm.trans ht')
      rfl
    | succ i =>
      have hrec := hentries i raw t' (by simpa using hi) ht'
      rw [show n + 1 + i = n + (i + 1) by omega] at hrec
      exact hrec

/-- A line that is not UTF-8 is never passed. -/
theorem loggerLoop_invalid (hw : ∀ i, writes i = true) (s : List UInt8) (n : Nat)
    (hs : ¬ LinesUtf8 s) : (loggerLoop stamp writes n s).exit = .readFailed := by
  induction hl : s.length using Nat.strongRecOn generalizing s n with
  | _ len ih =>
    by_cases hne : s = []
    · subst hne
      exact absurd (fun raw h => absurd h (by simp [streamLines])) hs
    cases ht : fromUtf8 (readUntilNewline s).1 with
    | none => rw [loggerLoop_none hne ht]
    | some t =>
      unfold LinesUtf8 at hs
      rw [streamLines_eq hne, List.forall_mem_cons] at hs
      have hrest : ¬ LinesUtf8 (readUntilNewline s).2 := fun h => hs ⟨⟨t, ht⟩, h⟩
      have hlt := readUntilNewline_length hne
      rw [loggerLoop_some hw hne ht]
      exact ih _ (hl ▸ hlt) _ (n + 1) hrest rfl

end Loop

theorem entry_inj {ts a b : Str} (h : entry ts a = entry ts b) : a = b := by
  have htail := (List.cons.inj (List.append_cancel_left h)).2
  exact List.append_cancel_right htail

/-- The logger keeps every line, with endings cut by `ending`, exactly when every line
is UTF-8 and cut that way by the reader too. -/
theorem lossless_iff (ending : Str → Str) {stamp : Nat → Str} {writes : Nat → Bool}
    (hw : ∀ i, writes i = true) (s : List UInt8) :
    Lossless ending stamp s (spawnLoggerTask stamp true writes s) ↔
      ∀ raw ∈ streamLines s, ∃ t, fromUtf8 raw = some t ∧ withoutEnding t = ending t := by
  have hrun : spawnLoggerTask stamp true writes s = loggerLoop stamp writes 0 s := rfl
  rw [hrun]
  by_cases hs : LinesUtf8 s
  · have hvalid := @loggerLoop_valid stamp writes hw s 0 hs
    obtain ⟨hexit, hunread, hcount, hentries⟩ := hvalid
    simp only [Nat.zero_add] at hentries
    constructor
    · intro h raw hraw
      obtain ⟨t, ht⟩ := hs raw hraw
      obtain ⟨i, hi⟩ := List.mem_iff_getElem?.mp hraw
      obtain ⟨line, hline, hending⟩ := h.entries i raw hi
      rw [hentries i raw t hi ht] at hline
      have hsame := entry_inj (Option.some.inj hline)
      exact ⟨t, ht, hsame.trans (hending t ht)⟩
    · intro h
      refine ⟨hexit, hunread, hcount, fun i raw hi => ?_⟩
      obtain ⟨t, ht, hsame⟩ := h raw (List.mem_of_getElem? hi)
      refine ⟨withoutEnding t, hentries i raw t hi ht, fun t' ht' => ?_⟩
      rw [ht] at ht'
      rw [hsame, Option.some.inj ht']
  · constructor
    · intro h
      have hexit := h.exit
      rw [loggerLoop_invalid hw s 0 hs] at hexit
      exact absurd hexit (by simp)
    · intro h
      exact absurd (fun raw hraw => (h raw hraw).imp fun _ ht => ht.1) hs

/-- The line without its newline only. -/
def withoutNewline (text : Str) : Str := (stripSuffix text "\n".toList).getD text

/-- The reader cuts more than the newline off a text exactly when it ends in `\r\n`. -/
theorem withoutEnding_eq_iff (t : Str) :
    withoutEnding t = withoutNewline t ↔ ¬ "\r\n".toList <:+ t := by
  unfold withoutEnding withoutNewline
  cases ht : stripSuffix t "\n".toList with
  | none =>
    refine iff_of_true rfl ?_
    rintro ⟨u, rfl⟩
    have hsome : stripSuffix (u ++ "\r\n".toList) "\n".toList = some (u ++ "\r".toList) :=
      stripSuffix_eq_some.mpr (by simp)
    rw [hsome] at ht
    exact absurd ht (by simp)
  | some u =>
    obtain rfl : t = u ++ "\n".toList := stripSuffix_eq_some.mp ht
    have hsuffix : "\r\n".toList <:+ u ++ "\n".toList ↔ "\r".toList <:+ u := by
      constructor
      · rintro ⟨v, hv⟩
        have hcut : (v ++ "\r".toList) ++ "\n".toList = u ++ "\n".toList := by
          rw [List.append_assoc]
          exact hv
        exact ⟨v, List.append_cancel_right hcut⟩
      · rintro ⟨v, rfl⟩
        exact ⟨v, by rw [List.append_assoc]; rfl⟩
    rw [hsuffix]
    show (stripSuffix u "\r".toList).getD u = u ↔ ¬ "\r".toList <:+ u
    cases hu : stripSuffix u "\r".toList with
    | none =>
      refine iff_of_true rfl ?_
      rintro ⟨v, rfl⟩
      rw [stripSuffix_eq_some.mpr rfl] at hu
      exact absurd hu (by simp)
    | some v =>
      obtain rfl : u = v ++ "\r".toList := stripSuffix_eq_some.mp hu
      refine iff_of_false ?_ (not_not.mpr (List.suffix_append v _))
      intro h
      have hlen := congrArg List.length h
      simp at hlen

/-- **The logger is lossless** exactly when every line is UTF-8; if a carriage return in
front of a newline counts as text, exactly when no line ends in one besides. -/
theorem logger_lossless_iff (stamp : Nat → Str) (writes : Nat → Bool)
    (hw : ∀ i, writes i = true) (s : List UInt8) :
    (Lossless withoutEnding stamp s (spawnLoggerTask stamp true writes s) ↔ LinesUtf8 s) ∧
    (Lossless withoutNewline stamp s (spawnLoggerTask stamp true writes s) ↔
      ∀ raw ∈ streamLines s, ∃ t, fromUtf8 raw = some t ∧ ¬ "\r\n".toList <:+ t) := by
  constructor
  · rw [lossless_iff withoutEnding hw]
    simp only [and_true]
    exact Iff.rfl
  · rw [lossless_iff withoutNewline hw]
    simp only [withoutEnding_eq_iff]

/-- Three lines, the second of which ends in a carriage return. -/
def helloLines : List UInt8 := ascii "hello\nfrom\r\nhere"

theorem logger_lossless_iff_hello :
    (Lossless withoutEnding (fun _ => "now".toList) helloLines
      (spawnLoggerTask (fun _ => "now".toList) true (fun _ => true) helloLines) ↔
        LinesUtf8 helloLines) ∧
    (Lossless withoutNewline (fun _ => "now".toList) helloLines
      (spawnLoggerTask (fun _ => "now".toList) true (fun _ => true) helloLines) ↔
        ∀ raw ∈ streamLines helloLines, ∃ t, fromUtf8 raw = some t ∧
          ¬ "\r\n".toList <:+ t) :=
  logger_lossless_iff (fun _ => "now".toList) (fun _ => true) (fun _ => rfl) helloLines

/-- The byte 255 ends the loop, and the line after it is not read. -/
theorem not_logger_lossless : ¬ ∀ (stamp : Nat → Str) (writes : Nat → Bool),
    (∀ i, writes i = true) → ∀ s,
    Lossless withoutEnding stamp s (spawnLoggerTask stamp true writes s) := by
  intro h
  have hline : fromUtf8 (readUntilNewline (255 :: ascii "\nb\n")).1 = none := by decide
  have hrun : spawnLoggerTask (fun _ => []) true (fun _ => true) (255 :: ascii "\nb\n") =
      ⟨[], ascii "b\n", .readFailed⟩ := loggerLoop_none (by simp) hline
  have hexit := (h (fun _ => []) (fun _ => true) (fun _ => rfl) (255 :: ascii "\nb\n")).exit
  rw [hrun] at hexit
  exact absurd hexit (by simp)

end Systeml.Journal
