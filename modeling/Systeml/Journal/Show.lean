import Systeml.Journal.Logger
import Systeml.Lib.DateTime
import Systeml.Lib.JsonText
import Systeml.Lib.TextLines
import Systeml.Lib.Utf8

/-!
# Showing a journal

`journalctl -u`: the files of the units are read from their beginning, and each line, or each
of the last ones, is shown with its timestamp in the format that was asked for. How a
timestamp is read is a parameter.

What the loggers of a service wrote, in whatever order their entries came to stand in the
file, is shown record by record with its timestamp (`run_logged`); a carriage return at the
end of a line is lost. And `-o json` loses nothing: from its output the lines of the files are read back,
whatever they are (`replay_json`).
-/

namespace Systeml.Journal

open Systeml.Lib

/-! ## Output formats -/

inductive Format where
  /-- `MMM DD HH:MM:SS unit[stream]: line`. -/
  | short
  /-- `<rfc3339> unit[stream]: line`. -/
  | shortIso
  /-- The line only. -/
  | cat
  /-- One JSON object per line. -/
  | json
  deriving DecidableEq, Repr

/-- Why nothing more is shown. -/
inductive Error where
  | unknownFormat (s : Str)
  | read (unit kind : Str)
  deriving DecidableEq, Repr

def parseFormat (s : Str) : Except Error Format :=
  if s = "short".toList ∨ s = [] then .ok .short
  else if s = "short-iso".toList then .ok .shortIso
  else if s = "cat".toList then .ok .cat
  else if s = "json".toList then .ok .json
  else .error (.unknownFormat s)

/-- Split `<RFC3339-timestamp> <message>`; a line without a timestamp is all message. -/
def splitTimestamp (parse : Str → Option DateTime) (line : Str) : Option Str × Str :=
  match splitOnce ' ' line with
  | none => (none, line)
  | some (head, rest) => if (parse head).isSome then (some head, rest) else (none, line)

def monthAbbrev : Nat → Str
  | 1 => "Jan".toList
  | 2 => "Feb".toList
  | 3 => "Mar".toList
  | 4 => "Apr".toList
  | 5 => "May".toList
  | 6 => "Jun".toList
  | 7 => "Jul".toList
  | 8 => "Aug".toList
  | 9 => "Sep".toList
  | 10 => "Oct".toList
  | 11 => "Nov".toList
  | 12 => "Dec".toList
  | _ => "???".toList

/-- `{:02}`. -/
def twoDigits (n : Nat) : Str := (Nat.toDigits 10 n).leftpad 2 '0'

/-- The timestamp as the short format has it. -/
def shortTs (parse : Str → Option DateTime) (rfc : Str) : Str :=
  match parse rfc with
  | some t =>
    monthAbbrev (secDate t.sec).month ++ ' ' :: twoDigits (secDate t.sec).day ++
      ' ' :: twoDigits (secHour t.sec) ++ ':' :: twoDigits (secMinute t.sec) ++
      ':' :: twoDigits (secSecond t.sec)
  | none => rfc

/-- `unit[stream]: line`. -/
def tagged (unit stream msg : Str) : Str := unit ++ '[' :: (stream ++ ("]: ".toList ++ msg))

/-- What is printed for a message with its timestamp. -/
def printed (parse : Str → Option DateTime) (unit stream : Str) (fmt : Format) :
    Option Str × Str → Str
  | (ts, msg) =>
    let line := match fmt with
      | .short => match ts with
        | some rfc => shortTs parse rfc ++ ' ' :: tagged unit stream msg
        | none => tagged unit stream msg
      | .shortIso => match ts with
        | some rfc => rfc ++ ' ' :: tagged unit stream msg
        | none => tagged unit stream msg
      | .cat => msg
      | .json => Json.writeObject [("ts".toList, ts), ("unit".toList, some unit),
        ("stream".toList, some stream), ("line".toList, some msg)]
    line ++ ['\n']

def emit (parse : Str → Option DateTime) (unit stream raw : Str) (fmt : Format) : Str :=
  printed parse unit stream fmt (splitTimestamp parse raw)

/-! ## Streams -/

/-- A journal file, with what is in it. -/
structure Stream where
  unit : Str
  kind : Str
  file : List UInt8
  deriving DecidableEq, Repr

/-- The streams of the units that have a file. -/
def openStreams (files : Str → Option (List UInt8)) (dir : Str) (units : List Str) :
    List Stream :=
  units.flatMap fun unit => ["out".toList, "err".toList].filterMap fun kind =>
    (files (joinPath dir (unit ++ '.' :: (kind ++ ".log".toList)))).map fun file =>
      { unit, kind, file }

/-- The last `n` of the lines, or all of them. -/
def tailOf {β : Type} (n : Option Nat) (ls : List β) : List β :=
  match n with
  | some k => if k < ls.length then ls.drop (ls.length - k) else ls
  | none => ls

/-- Print every stream, until one cannot be read. -/
def replay (parse : Str → Option DateTime) (n : Option Nat) (fmt : Format) :
    List Stream → Str × Option Error
  | [] => ([], none)
  | s :: rest =>
    match fromUtf8 s.file with
    | none => ([], some (.read s.unit s.kind))
    | some buf =>
      let (out, e) := replay parse n fmt rest
      ((tailOf n (lines buf)).flatMap (fun line => emit parse s.unit s.kind line fmt) ++ out, e)

theorem tailOf_map {β γ : Type} (n : Option Nat) (f : β → γ) (ls : List β) :
    tailOf n (ls.map f) = (tailOf n ls).map f := by
  unfold tailOf
  rw [List.length_map]
  split
  · split
    · rw [List.map_drop]
    · rfl
  · rfl

/-- What is printed of streams that can be read. -/
theorem replay_eq {parse : Str → Option DateTime} {n : Option Nat} {fmt : Format}
    {text : Stream → Str} : ∀ {ss : List Stream}, (∀ s ∈ ss, fromUtf8 s.file = some (text s)) →
    replay parse n fmt ss = (ss.flatMap fun s => (tailOf n (lines (text s))).flatMap
      fun line => emit parse s.unit s.kind line fmt, none)
  | [], _ => rfl
  | s :: ss, h => by
    rw [replay, h s List.mem_cons_self, replay_eq fun s hs => h s (List.mem_cons_of_mem _ hs)]
    rfl

/-- The command line. -/
structure Cli where
  units : List Str
  lines : Option Nat
  output : Str
  deriving DecidableEq, Repr

/-- `journalctl`, neither listing units nor following: what it prints, and its exit code or
its error. -/
def run (parse : Str → Option DateTime) (files : Str → Option (List UInt8)) (dir : Str)
    (dirExists : Bool) (cli : Cli) : Str × Except Error Nat :=
  if !dirExists then ([], .ok 0)
  else
    match parseFormat cli.output with
    | .error e => ([], .error e)
    | .ok format =>
      if cli.units = [] then ([], .ok 2)
      else
        let streams := openStreams files dir cli.units
        if streams = [] then ([], .ok 1)
        else
          let (out, e) := replay parse cli.lines format streams
          (out, match e with
            | none => .ok 0
            | some e => .error e)

/-- Where there is a stream, the streams decide. -/
theorem run_eq {parse : Str → Option DateTime} {files : Str → Option (List UInt8)} {dir : Str}
    {cli : Cli} {format : Format} {out : Str} (hfmt : parseFormat cli.output = .ok format)
    (hopen : openStreams files dir cli.units ≠ [])
    (hreplay : replay parse cli.lines format (openStreams files dir cli.units) = (out, none)) :
    run parse files dir true cli = (out, .ok 0) := by
  have hunits : cli.units ≠ [] := by
    intro hnil
    rw [hnil] at hopen
    exact hopen rfl
  simp only [run, hfmt, hreplay, if_neg hunits, if_neg hopen, Bool.not_true, Bool.false_eq_true,
    if_false]

/-! ## What loggers write -/

/-- A logger writes this entry at some time. Its timestamps are single words that are read as
timestamps: the clock could be formatted. -/
def FromLogger (parse : Str → Option DateTime) (e : Str) : Prop :=
  ∃ stamp writes opens bytes,
    (∀ i : Nat, ' ' ∉ stamp i ∧ '\n' ∉ stamp i ∧ (parse (stamp i)).isSome) ∧
      e ∈ (spawnLoggerTask stamp opens writes bytes).entries

/-- The text of a line has no line feed in it. -/
theorem newline_notMem_nextLine {s rest : List UInt8} {text : Str}
    (h : nextLine s = (.line text, rest)) : '\n' ∉ text := by
  unfold nextLine at h
  split at h
  next => exact absurd h (by simp)
  next =>
    split at h
    next t ht =>
      obtain ⟨htext, -⟩ := Prod.mk.inj h
      obtain rfl := NextLine.line.inj htext
      have hnot : newline ∉ s.takeWhile (· ≠ newline) := fun hm => by
        simpa using List.mem_takeWhile_imp hm
      unfold readUntilNewline at ht
      unfold withoutEnding
      cases hd : (s.dropWhile (· ≠ newline)).take 1 with
      | nil =>
        -- the stream ends without a line feed
        simp only [hd, List.append_nil] at ht
        have hfree : '\n' ∉ t := (mem_of_fromUtf8 ht (by decide)).not.mp hnot
        cases hsuf : stripSuffix t "\n".toList with
        | none => exact hfree
        | some u =>
          obtain rfl := stripSuffix_eq_some.mp hsuf
          exact absurd (List.mem_append_right u List.mem_cons_self) hfree
      | cons x xs =>
        have hx : x = newline ∧ xs = [] := by
          cases hdrop : s.dropWhile (· ≠ newline) with
          | nil =>
            rw [hdrop] at hd
            exact absurd hd (by simp)
          | cons y ys =>
            have hy := List.head?_dropWhile_not (· ≠ newline) s
            rw [hdrop] at hy hd
            obtain ⟨rfl, rfl⟩ := List.cons.inj hd
            exact ⟨by simpa using hy, rfl⟩
        obtain ⟨rfl, rfl⟩ := hx
        simp only [hd] at ht
        obtain ⟨a, rfl, ha⟩ := fromUtf8_upTo (by decide) hnot ht
        have hstrip : stripSuffix (a ++ [Char.ofUInt8 newline]) "\n".toList = some a :=
          stripSuffix_eq_some.mpr rfl
        rw [hstrip]
        show '\n' ∉ (stripSuffix a "\r".toList).getD a
        cases hr : stripSuffix a "\r".toList with
        | none => exact ha
        | some b =>
          obtain rfl := stripSuffix_eq_some.mp hr
          exact fun hm => ha (List.mem_append_left _ hm)
    next => exact absurd h (by simp)

theorem entries_of_loggerLoop {stamp : Nat → Str} {writes : Nat → Bool} {n : Nat}
    {s : List UInt8} {e : Str} (h : e ∈ (loggerLoop stamp writes n s).entries) :
    ∃ i line, e = entry (stamp i) line ∧ '\n' ∉ line := by
  fun_induction loggerLoop stamp writes n s with
  | case1 => exact absurd h List.not_mem_nil
  | case2 => exact absurd h List.not_mem_nil
  | case3 n s text rest hnext hw r ih =>
    obtain rfl | h := List.mem_cons.mp h
    · exact ⟨n, text, rfl, newline_notMem_nextLine hnext⟩
    · exact ih h
  | case4 => exact absurd h List.not_mem_nil

/-- A record of a file: a timestamp that can be read, and the line. -/
structure Record (parse : Str → Option DateTime) where
  ts : Str
  line : Str
  stamped : ' ' ∉ ts
  whole : '\n' ∉ ts ++ ' ' :: line
  read : (parse ts).isSome

variable {parse : Str → Option DateTime}

/-- Its entry. -/
def Record.entry (r : Record parse) : Str := Journal.entry r.ts r.line

theorem record_of_logger {e : Str} (h : FromLogger parse e) :
    ∃ r : Record parse, r.entry = e := by
  obtain ⟨stamp, writes, opens, bytes, hstamp, he⟩ := h
  unfold spawnLoggerTask at he
  split at he
  · obtain ⟨i, line, rfl, hline⟩ := entries_of_loggerLoop he
    obtain ⟨hspace, hfeed, hread⟩ := hstamp i
    refine ⟨⟨stamp i, line, hspace, fun hm => ?_, hread⟩, rfl⟩
    obtain hm | hm := List.mem_append.mp hm
    · exact hfeed hm
    · obtain hm | hm := List.mem_cons.mp hm
      · exact absurd hm (by decide)
      · exact hline hm
  · exact absurd he List.not_mem_nil

/-- What is shown of a record: its timestamp and its line, less a carriage return at its end. -/
def Record.told (r : Record parse) : Option Str × Str := (some r.ts, withoutReturn r.line)

theorem splitTimestamp_record (r : Record parse) :
    splitTimestamp parse (withoutReturn (r.ts ++ ' ' :: r.line)) = r.told := by
  have hreturn : withoutReturn (r.ts ++ ' ' :: r.line) = r.ts ++ ' ' :: withoutReturn r.line := by
    unfold withoutReturn
    cases hl : stripSuffix r.line ['\r'] with
    | some a =>
      rw [stripSuffix_eq_some.mp hl, ← List.cons_append, ← List.append_assoc,
        stripSuffix_eq_some.mpr rfl]
      rfl
    | none =>
      have hnone : stripSuffix (r.ts ++ ' ' :: r.line) ['\r'] = none := by
        rw [Option.eq_none_iff_forall_ne_some]
        intro a ha
        have hall := stripSuffix_eq_some.mp ha
        rcases List.eq_nil_or_concat r.line with hnil | ⟨b, x, hx⟩
        · rw [hnil] at hall
          exact absurd (List.append_inj' hall rfl).2 (by decide)
        · rw [hx, List.concat_eq_append, ← List.cons_append, ← List.append_assoc] at hall
          obtain rfl : x = '\r' := (List.cons.inj (List.append_inj' hall rfl).2).1
          rw [hx, List.concat_eq_append, stripSuffix_eq_some.mpr rfl] at hl
          exact absurd hl (by simp)
      rw [hnone]
      rfl
  rw [hreturn, splitTimestamp, splitOnce_eq_some.mpr ⟨rfl, r.stamped⟩]
  show (if (parse r.ts).isSome then _ else _) = _
  rw [if_pos r.read]
  rfl

theorem records_of_entries : ∀ {es : List Str}, (∀ e ∈ es, FromLogger parse e) →
    ∃ rs : List (Record parse), rs.map Record.entry = es
  | [], _ => ⟨[], rfl⟩
  | e :: es, h => by
    obtain ⟨r, hr⟩ := record_of_logger (h e List.mem_cons_self)
    obtain ⟨rs, hrs⟩ := records_of_entries fun e he => h e (List.mem_cons_of_mem _ he)
    exact ⟨r :: rs, by rw [List.map_cons, hr, hrs]⟩

/-- The lines of a file of records. -/
theorem lines_records (rs : List (Record parse)) : lines (rs.map Record.entry).flatten =
    rs.map fun r => withoutReturn (r.ts ++ ' ' :: r.line) := by
  have hwhole : ∀ l ∈ rs.map fun r => r.ts ++ ' ' :: r.line, '\n' ∉ l := by
    intro l hl
    obtain ⟨r, -, rfl⟩ := List.mem_map.mp hl
    exact r.whole
  have hentries : (rs.map Record.entry).flatten =
      (rs.map fun r => r.ts ++ ' ' :: r.line).flatMap (· ++ ['\n']) := by
    rw [List.flatMap_map, List.flatMap_def]
    refine congrArg List.flatten (List.map_congr_left fun r _ => ?_)
    show r.ts ++ ' ' :: (r.line ++ ['\n']) = _
    rw [List.append_assoc, List.cons_append]
  rw [hentries, lines_flatMap hwhole, List.map_map]
  rfl

/-- **What loggers wrote is shown.** If every file that is opened consists of entries of
loggers, in any order, then `journalctl` succeeds and prints each record, or each of the last
ones, in the order of the files: its timestamp as the format wants it and its line, less a
carriage return at its end. -/
theorem run_logged (parse : Str → Option DateTime) {files : Str → Option (List UInt8)} {dir : Str}
    {cli : Cli} {format : Format} (hfmt : parseFormat cli.output = .ok format)
    (hopen : openStreams files dir cli.units ≠ [])
    (h : ∀ s ∈ openStreams files dir cli.units, ∃ es : List Str,
      fromUtf8 s.file = some es.flatten ∧ ∀ e ∈ es, FromLogger parse e) :
    ∃ records : Stream → List (Record parse),
      (∀ s ∈ openStreams files dir cli.units,
        fromUtf8 s.file = some ((records s).map Record.entry).flatten) ∧
      run parse files dir true cli =
        ((openStreams files dir cli.units).flatMap fun s => (tailOf cli.lines (records s)).flatMap
          fun r => printed parse s.unit s.kind format r.told, .ok 0) := by
  have hrecords : ∀ s : Stream, ∃ rs : List (Record parse), s ∈ openStreams files dir cli.units →
      fromUtf8 s.file = some (rs.map Record.entry).flatten := by
    intro s
    by_cases hs : s ∈ openStreams files dir cli.units
    · obtain ⟨es, hfile, hes⟩ := h s hs
      obtain ⟨rs, hrs⟩ := records_of_entries hes
      exact ⟨rs, fun _ => hrs ▸ hfile⟩
    · exact ⟨[], fun hs' => absurd hs' hs⟩
  choose records hfiles using hrecords
  refine ⟨records, hfiles, run_eq hfmt hopen ?_⟩
  rw [replay_eq hfiles]
  refine congrArg (·, none) (List.flatMap_congr fun s _ => ?_)
  rw [lines_records, tailOf_map, List.flatMap_map]
  refine List.flatMap_congr fun r _ => ?_
  rw [emit, splitTimestamp_record]

/-- A timestamp, read. -/
def noonOnly (s : Str) : Option DateTime :=
  if s = "2024-05-17T12:00:00Z".toList then some (.ofSec 1715947200) else none

/-- The journal of a service that wrote one line. -/
def helloFiles (path : Str) : Option (List UInt8) :=
  if path = "/journal/a.service.out.log".toList then some (ascii "2024-05-17T12:00:00Z hello\n")
  else none

def helloStream : Stream :=
  ⟨"a.service".toList, "out".toList, ascii "2024-05-17T12:00:00Z hello\n"⟩

def helloCli : Cli := ⟨["a.service".toList], none, "json".toList⟩

theorem openStreams_hello :
    openStreams helloFiles "/journal".toList helloCli.units = [helloStream] := by decide

theorem fromUtf8_hello : fromUtf8 helloStream.file =
    some (entry "2024-05-17T12:00:00Z".toList "hello".toList) :=
  fromUtf8_eq_some.mpr (by decide)

theorem fromLogger_hello : FromLogger noonOnly (entry "2024-05-17T12:00:00Z".toList "hello".toList) := by
  refine ⟨fun _ => "2024-05-17T12:00:00Z".toList, fun _ => true, true, ascii "hello\n",
    fun _ => (by decide : ' ' ∉ "2024-05-17T12:00:00Z".toList ∧
      '\n' ∉ "2024-05-17T12:00:00Z".toList ∧
        (noonOnly "2024-05-17T12:00:00Z".toList).isSome), ?_⟩
  have hline : fromUtf8 (readUntilNewline (ascii "hello\n")).1 = some "hello\n".toList :=
    fromUtf8_eq_some.mpr (by decide)
  unfold spawnLoggerTask
  rw [if_pos rfl, loggerLoop_some (fun _ => rfl) (by decide) hline]
  exact List.mem_cons_self

theorem run_logged_hello : ∃ records : Stream → List (Record noonOnly),
    (∀ s ∈ openStreams helloFiles "/journal".toList helloCli.units,
      fromUtf8 s.file = some ((records s).map Record.entry).flatten) ∧
    run noonOnly helloFiles "/journal".toList true helloCli =
      ((openStreams helloFiles "/journal".toList helloCli.units).flatMap fun s =>
        (tailOf helloCli.lines (records s)).flatMap
          fun r => printed noonOnly s.unit s.kind .json r.told, .ok 0) := by
  refine run_logged noonOnly (by decide) (openStreams_hello ▸ List.cons_ne_nil _ _) ?_
  intro s hs
  rw [openStreams_hello] at hs
  obtain rfl := List.mem_singleton.mp hs
  refine ⟨[entry "2024-05-17T12:00:00Z".toList "hello".toList], ?_, ?_⟩
  · rw [fromUtf8_hello, List.flatten_singleton]
  · intro e he
    obtain rfl := List.mem_singleton.mp he
    exact fromLogger_hello

/-! ## Reading the objects back -/

/-- The line that was split. -/
def joinTimestamp : Option Str × Str → Str
  | (some ts, msg) => ts ++ ' ' :: msg
  | (none, msg) => msg

theorem joinTimestamp_splitTimestamp (parse : Str → Option DateTime) (line : Str) :
    joinTimestamp (splitTimestamp parse line) = line := by
  unfold splitTimestamp
  cases h : splitOnce ' ' line with
  | none => rfl
  | some p =>
    obtain ⟨hline, -⟩ := splitOnce_eq_some.mp h
    simp only []
    split
    · exact hline.symm
    · rfl

/-- Unit, stream and line of an object that `journalctl` prints. -/
def readEntry (line : Str) : Option (Str × Str × Str) :=
  match Json.readObject line with
  | some [(k₁, ts), (k₂, some unit), (k₃, some stream), (k₄, some msg)] =>
    if k₁ = "ts".toList ∧ k₂ = "unit".toList ∧ k₃ = "stream".toList ∧ k₄ = "line".toList then
      some (unit, stream, joinTimestamp (ts, msg))
    else none
  | _ => none

/-- The object of a line stands on a line of its own, and is read back. -/
theorem readEntry_printed (parse : Str → Option DateTime) (unit stream raw : Str) :
    ∃ line, emit parse unit stream raw .json = line ++ ['\n'] ∧ '\n' ∉ line ∧
      readEntry (withoutReturn line) = some (unit, stream, raw) := by
  obtain ⟨ts, msg, hsplit⟩ : ∃ ts msg, splitTimestamp parse raw = (ts, msg) := ⟨_, _, rfl⟩
  refine ⟨Json.writeObject [("ts".toList, ts), ("unit".toList, some unit),
    ("stream".toList, some stream), ("line".toList, some msg)], ?_,
    Json.control_notMem_writeObject (by decide) _, ?_⟩
  · rw [emit, hsplit]
    rfl
  · have hreturn : ∀ ms, withoutReturn (Json.writeObject ms) = Json.writeObject ms := by
      intro ms
      unfold withoutReturn
      cases h : stripSuffix (Json.writeObject ms) ['\r'] with
      | none => rfl
      | some a =>
        have hin : '\r' ∈ Json.writeObject ms := by
          rw [stripSuffix_eq_some.mp h]
          exact List.mem_append_right _ List.mem_cons_self
        exact absurd hin (Json.control_notMem_writeObject (by decide) ms)
    have hjoin := joinTimestamp_splitTimestamp parse raw
    rw [hsplit] at hjoin
    rw [hreturn, readEntry, Json.readObject_writeObject]
    simp only [and_self, if_true, hjoin]

/-- **`-o json` loses nothing.** Whatever text the files hold, the lines that are shown of
them are read back from what is printed, with unit and stream. -/
theorem replay_json (parse : Str → Option DateTime) (n : Option Nat) {ss : List Stream}
    {text : Stream → Str} (h : ∀ s ∈ ss, fromUtf8 s.file = some (text s)) :
    ∃ out, replay parse n .json ss = (out, none) ∧
      (lines out).map readEntry = (ss.flatMap fun s =>
        (tailOf n (lines (text s))).map fun raw => (s.unit, s.kind, raw)).map some := by
  refine ⟨_, replay_eq h, ?_⟩
  -- one object for each line that is shown
  have hemits : ∀ ls : List (Str × Str × Str),
      (lines (ls.flatMap fun e => emit parse e.1 e.2.1 e.2.2 .json)).map readEntry =
        ls.map some := by
    intro ls
    choose line hline hfree hread using readEntry_printed parse
    have hflat : ls.flatMap (fun e => emit parse e.1 e.2.1 e.2.2 .json) =
        (ls.map fun e => line e.1 e.2.1 e.2.2).flatMap (· ++ ['\n']) := by
      rw [List.flatMap_map]
      exact List.flatMap_congr fun e _ => hline e.1 e.2.1 e.2.2
    rw [hflat, lines_flatMap, List.map_map, List.map_map]
    · exact List.map_congr_left fun e _ => hread e.1 e.2.1 e.2.2
    · intro l hl
      obtain ⟨e, -, rfl⟩ := List.mem_map.mp hl
      exact hfree e.1 e.2.1 e.2.2
  have hall := hemits (ss.flatMap fun s => (tailOf n (lines (text s))).map fun raw =>
    (s.unit, s.kind, raw))
  rw [List.flatMap_assoc] at hall
  simp only [List.flatMap_map] at hall
  exact hall

theorem replay_json_hello : ∃ out, replay noonOnly none .json [helloStream] = (out, none) ∧
    (lines out).map readEntry = ([helloStream].flatMap fun s =>
      (tailOf none (lines (entry "2024-05-17T12:00:00Z".toList "hello".toList))).map fun raw =>
        (s.unit, s.kind, raw)).map some :=
  replay_json noonOnly none fun s hs => by
    rw [List.mem_singleton.mp hs]
    exact fromUtf8_hello

end Systeml.Journal
