import Systeml.Lib.LineSplit
import Systeml.Lib.Run
import Systeml.Lib.Text

/-!
# Following a journal file

`journalctl -f` on one stream: the initial tail, then passes that read from the
last position to the end of the file. The file grows between any two system calls.
A read returns any part of what there is to read, and the bytes of a line that is
not complete at the end of the file are shown as a line.

A pass notes the length of the file before it reads and takes it for the position
it has read to. `follow_shows_once`: lines are shown once each, and all of them are
once the position is the end of the file, in every run where nothing is appended
during a pass and every pass starts at the end of a line (`Undisturbed`).

With several streams the passes of one wait for those of the others, which are
steps of other files here.
-/

namespace Systeml.Journal

open Systeml.Lib

/-- `\n`. -/
abbrev newline : UInt8 := 10

/-- `str::trim_end_matches` for a character. -/
def trimEndMatches (c : Char) (s : Str) : Str := (s.reverse.dropWhile (· = c)).reverse

/-- What is emitted for the bytes of a line, if they are UTF-8. -/
def message (bytes : List UInt8) : Option Str :=
  (fromUtf8 bytes).map fun s => trimEndMatches '\r' (trimEndMatches '\n' s)

/-- What is emitted for a complete line, given without its newline. -/
def lineMessage (line : List UInt8) : Option Str := message (line ++ [newline])

/-- Where `follow` is. -/
inductive Phase where
  /-- Before the length of the file is taken for the tail. -/
  | begin
  /-- `read_to_string` for the tail, with what it has read. -/
  | tail (len : Nat) (buf : List UInt8)
  /-- Between two passes. -/
  | idle
  /-- In a pass: the length noted, the offset in the file, the open line. -/
  | pass (len offset : Nat) (line : List UInt8)
  /-- `follow` has returned an error. -/
  | failed
  deriving DecidableEq, Repr

/-- The file and the state of `follow` on it. -/
structure Follow where
  /-- The `-n` option. -/
  n : Option Nat
  file : List UInt8
  phase : Phase := .begin
  /-- Last byte position we've consumed in this file. -/
  pos : Nat := 0
  /-- What the initial tail has shown. -/
  tail : List Str := []
  /-- What the passes have shown. -/
  emitted : List Str := []
  /-- How much of the file the tail has covered. -/
  covered : Nat := 0
  deriving DecidableEq, Repr

/-- What happens next. -/
inductive Label where
  /-- The writer appends some bytes. -/
  | append (bytes : List UInt8)
  /-- `follow` takes the length of the file. -/
  | measure
  /-- A `read` returns at most `max` of the bytes there are. -/
  | read (max : Nat)
  deriving DecidableEq, Repr

/-- The messages of lines, up to one that is not UTF-8. -/
def emitLines : List (List UInt8) → List Str × Bool
  | [] => ([], true)
  | line :: rest =>
    match lineMessage line with
    | none => ([], false)
    | some m => (m :: (emitLines rest).1, (emitLines rest).2)

/-- The last `k` lines. -/
def lastLines (k : Nat) (s : Str) : List Str := (lines s).drop ((lines s).length - k)

namespace Follow

/-- The end of the read for the tail. -/
def endTail (f : Follow) (k len : Nat) (buf : List UInt8) : Follow :=
  match fromUtf8 buf with
  | none => { f with phase := .failed }
  | some s => { f with phase := .idle, pos := len, tail := lastLines k s, covered := buf.length }

/-- The length of the file is taken. -/
def measure (f : Follow) : Option Follow :=
  match f.phase with
  | .begin =>
    match f.n with
    | none | some 0 => some { f with phase := .idle, pos := f.file.length, covered := f.file.length }
    | some (_ + 1) => some { f with phase := .tail f.file.length [] }
  | .idle =>
    -- truncated: restart from 0
    let pos := if f.file.length < f.pos then 0 else f.pos
    if f.file.length ≤ pos then some { f with pos := pos }
    else some { f with pos := pos, phase := .pass f.file.length pos [] }
  | _ => none

/-- `read_line` at the end of the file: the open line is shown, or the pass ends. -/
def endOfFile (f : Follow) (len offset : Nat) (line : List UInt8) : Follow :=
  if line = [] then { f with phase := .idle, pos := len }
  else
    match message line with
    | none => { f with phase := .failed }
    | some m => { f with phase := .pass len offset [], emitted := f.emitted ++ [m] }

/-- `read_line` on the bytes of one read. -/
def consume (f : Follow) (len offset : Nat) (bytes : List UInt8) : Follow :=
  let shown := emitLines (completeLines newline bytes)
  let f := { f with emitted := f.emitted ++ shown.1 }
  if shown.2 then { f with phase := .pass len offset (restLine newline bytes) }
  else { f with phase := .failed }

/-- One `read`. -/
def read (f : Follow) (max : Nat) : Option Follow :=
  match f.phase with
  | .tail len buf =>
    let chunk := (f.file.drop buf.length).take (max + 1)
    if chunk = [] then some (f.endTail (f.n.getD 0) len buf)
    else some { f with phase := .tail len (buf ++ chunk) }
  | .pass len offset line =>
    let chunk := (f.file.drop offset).take (max + 1)
    if chunk = [] then some (f.endOfFile len offset line)
    else some (f.consume len (offset + chunk.length) (line ++ chunk))
  | _ => none

/-- One step of the writer or of `follow`. -/
def step (f : Follow) : Label → Option Follow
  | .append bytes => some { f with file := f.file ++ bytes }
  | .measure => f.measure
  | .read max => f.read max

end Follow

/-- The lines that the passes are to show: the complete ones, but for those that
were complete in what the tail covered. -/
def dueLines (f : Follow) : List (List UInt8) :=
  (completeLines newline f.file).drop (completeLines newline (f.file.take f.covered)).length

/-- The passes show the lines they are to show, in order and once each, and no others;
all of them once the position is the end of the file. -/
structure ShowsOnce (f : Follow) : Prop where
  running : f.phase ≠ .failed
  only : f.emitted.map some <+: (dueLines f).map lineMessage
  all : f.phase = .idle → f.pos = f.file.length → f.emitted.map some = (dueLines f).map lineMessage

/-! ## Undisturbed runs -/

/-- `follow` reads, and has noted a length before. -/
def Phase.reads : Phase → Bool
  | tail .. | pass .. => true
  | begin | idle | failed => false

/-- What is read after the length is taken. -/
def Follow.ahead (f : Follow) : List UInt8 :=
  match f.phase with
  | .begin =>
    match f.n with
    | none | some 0 => []
    | some (_ + 1) => f.file
  | _ => f.file.drop f.pos

/-- Every complete line is UTF-8. -/
def Readable (bytes : List UInt8) : Prop :=
  ∀ line ∈ completeLines newline bytes, (lineMessage line).isSome = true

/-- Nothing is appended while `follow` reads, and when it takes the length the file
ends with a line, and the lines it is going to read are UTF-8. -/
def Undisturbed (f : Follow) : Label → Prop
  | .append bytes => f.phase.reads = true → bytes = []
  | .measure => EndsLine newline f.file ∧ Readable f.ahead
  | .read _ => True

/-! ## Text -/

theorem fromUtf8_isSome {bytes : List UInt8} :
    (fromUtf8 bytes).isSome = true ↔ ByteArray.IsValidUTF8 ⟨bytes.toArray⟩ := by
  unfold fromUtf8 String.fromUTF8?
  by_cases h : ByteArray.IsValidUTF8 ⟨bytes.toArray⟩
  · simp [h]
  · simp [h]

theorem fromUtf8_append {a b : List UInt8} (ha : (fromUtf8 a).isSome = true)
    (hb : (fromUtf8 b).isSome = true) : (fromUtf8 (a ++ b)).isSome = true := by
  rw [fromUtf8_isSome] at ha hb ⊢
  have h := ha.append hb
  have he : (ByteArray.mk a.toArray) ++ (ByteArray.mk b.toArray) = ⟨(a ++ b).toArray⟩ := by
    apply ByteArray.ext
    simp
  rw [he] at h
  exact h

/-- Lines that are UTF-8 make a text that is. -/
theorem Readable.fromUtf8 {bytes : List UInt8} (hr : Readable bytes)
    (he : EndsLine newline bytes) : (fromUtf8 bytes).isSome = true := by
  rw [← he.eq_flatten]
  unfold Readable at hr
  generalize completeLines newline bytes = ls at hr ⊢
  induction ls with
  | nil => rfl
  | cons line rest ih =>
    have hline := hr line (List.mem_cons_self ..)
    unfold lineMessage message at hline
    rw [Option.isSome_map] at hline
    exact fromUtf8_append hline (ih fun l hl => hr l (List.mem_cons_of_mem line hl))

/-- Lines that are UTF-8 are all emitted. -/
theorem emitLines_spec : ∀ {ls : List (List UInt8)},
    (∀ line ∈ ls, (lineMessage line).isSome = true) →
    (emitLines ls).2 = true ∧ (emitLines ls).1.map some = ls.map lineMessage := by
  intro ls
  induction ls with
  | nil => exact fun _ => ⟨rfl, rfl⟩
  | cons line rest ih =>
    intro h
    obtain ⟨hok, hmap⟩ := ih fun l hl => h l (List.mem_cons_of_mem line hl)
    obtain ⟨m, hm⟩ := Option.isSome_iff_exists.mp (h line (List.mem_cons_self ..))
    unfold emitLines
    rw [hm]
    refine ⟨hok, ?_⟩
    rw [List.map_cons, List.map_cons, hmap, hm]

/-! ## The invariant -/

/-- What the passes have shown are the due lines of the file up to an offset. -/
structure ShownTo (file : List UInt8) (covered : Nat) (emitted : List Str) (offset : Nat) :
    Prop where
  after : covered ≤ offset
  inFile : offset ≤ file.length
  lines : emitted.map some = ((completeLines newline (file.take offset)).drop
    (completeLines newline (file.take covered)).length).map lineMessage

/-- What holds between the steps of an undisturbed run. -/
inductive Inv (f : Follow) : Prop
  | begin (hp : f.phase = .begin) (he : f.emitted = [])
  | tail {len : Nat} {buf : List UInt8} (hp : f.phase = .tail len buf) (he : f.emitted = [])
      (hl : len = f.file.length) (hbuf : buf <+: f.file) (hends : EndsLine newline f.file)
      (hread : Readable f.file)
  | idle (hp : f.phase = .idle) (hs : ShownTo f.file f.covered f.emitted f.pos)
      (hends : EndsLine newline (f.file.take f.pos))
  | pass {len offset : Nat} {line : List UInt8} (hp : f.phase = .pass len offset line)
      (hs : ShownTo f.file f.covered f.emitted offset) (hl : len = f.file.length)
      (hline : line = restLine newline (f.file.take offset)) (hends : EndsLine newline f.file)
      (hread : Readable (line ++ f.file.drop offset))

/-- What is appended changes nothing up to an offset in the file. -/
theorem ShownTo.append {file : List UInt8} {covered offset : Nat} {emitted : List Str}
    (h : ShownTo file covered emitted offset) (bytes : List UInt8) :
    ShownTo (file ++ bytes) covered emitted offset := by
  have hin := h.inFile
  have hcov := h.after
  refine ⟨hcov, ?_, ?_⟩
  · rw [List.length_append]
    omega
  · rw [List.take_append_of_le_length hin, List.take_append_of_le_length (by omega)]
    exact h.lines

/-- Nothing is due up to where the tail has covered the file. -/
theorem shownTo_covered (file : List UInt8) : ShownTo file file.length [] file.length := by
  refine ⟨Nat.le_refl _, Nat.le_refl _, ?_⟩
  rw [List.drop_length]
  rfl

/-- A chunk of the file: the lines it completes, and the line it leaves open. -/
theorem lines_chunk {file chunk : List UInt8} {offset : Nat} (h : chunk <+: file.drop offset) :
    completeLines newline (file.take (offset + chunk.length)) =
        completeLines newline (file.take offset) ++
          completeLines newline (restLine newline (file.take offset) ++ chunk) ∧
      restLine newline (file.take (offset + chunk.length)) =
        restLine newline (restLine newline (file.take offset) ++ chunk) := by
  have htake : file.take (offset + chunk.length) = file.take offset ++ chunk := by
    rw [List.take_add, List.prefix_iff_eq_take.mp h, List.length_take]
    congr 1
    simp
  rw [htake]
  exact ⟨completeLines_append newline _ _, restLine_append newline _ _⟩

/-- Showing the lines of a chunk. -/
theorem ShownTo.chunk {file chunk : List UInt8} {covered offset : Nat}
    {emitted more : List Str} (h : ShownTo file covered emitted offset)
    (hc : chunk <+: file.drop offset)
    (hm : more.map some = (completeLines newline
      (restLine newline (file.take offset) ++ chunk)).map lineMessage) :
    ShownTo file covered (emitted ++ more) (offset + chunk.length) := by
  have hin := h.inFile
  have hlen := hc.length_le
  rw [List.length_drop] at hlen
  refine ⟨by have := h.after; omega, by omega, ?_⟩
  have hcov : (completeLines newline (file.take covered)).length ≤
      (completeLines newline (file.take offset)).length := by
    have hpre := completeLines_take newline (file.take offset) covered
    rw [List.take_take, Nat.min_eq_left h.after] at hpre
    exact hpre.length_le
  rw [List.map_append, h.lines, hm, (lines_chunk hc).1, List.drop_append_of_le_length hcov,
    List.map_append]

/-! ## The steps keep it -/

theorem append_inv {f : Follow} {bytes : List UInt8} (h : Inv f)
    (hu : Undisturbed f (.append bytes)) : Inv { f with file := f.file ++ bytes } := by
  by_cases hb : bytes = []
  · rw [hb, List.append_nil]
    exact h
  cases h with
  | begin hp he => exact .begin hp he
  | idle hp hs hends =>
    refine .idle hp (hs.append bytes) ?_
    rw [List.take_append_of_le_length hs.inFile]
    exact hends
  | tail hp _ _ _ _ _ => exact absurd (hu (by rw [hp]; rfl)) hb
  | pass hp _ _ _ _ _ => exact absurd (hu (by rw [hp]; rfl)) hb

/-- Taking the length without a tail to show. -/
theorem covered_inv {f : Follow} (he : f.emitted = []) (hends : EndsLine newline f.file) :
    Inv { f with phase := .idle, pos := f.file.length, covered := f.file.length } := by
  refine .idle rfl ?_ ?_
  · show ShownTo f.file f.file.length f.emitted f.file.length
    rw [he]
    exact shownTo_covered f.file
  · show EndsLine newline (f.file.take f.file.length)
    rw [List.take_length]
    exact hends

theorem measure_inv {f f' : Follow} (h : Inv f) (hu : Undisturbed f .measure)
    (hs : f.measure = some f') : Inv f' := by
  obtain ⟨hends, hread⟩ := hu
  unfold Follow.measure at hs
  unfold Follow.ahead at hread
  cases h with
  | begin hp he =>
    rw [hp] at hs hread
    simp only at hs hread
    split at hs
    next =>
      obtain rfl := Option.some.inj hs
      exact covered_inv he hends
    next =>
      obtain rfl := Option.some.inj hs
      exact covered_inv he hends
    next k hn =>
      rw [hn] at hread
      obtain rfl := Option.some.inj hs
      exact .tail rfl he rfl List.nil_prefix hends hread
  | idle hp hshown hpos =>
    rw [hp] at hs hread
    have hin := hshown.inFile
    simp only [if_neg (show ¬ f.file.length < f.pos by omega)] at hs
    split at hs
    next =>
      obtain rfl := Option.some.inj hs
      exact .idle rfl hshown hpos
    next =>
      obtain rfl := Option.some.inj hs
      exact .pass rfl hshown rfl hpos.symm hends hread
  | tail hp _ _ _ _ _ => rw [hp] at hs; exact absurd hs (by simp)
  | pass hp _ _ _ _ _ => rw [hp] at hs; exact absurd hs (by simp)

/-- Nothing is left to read at the end of the file only. -/
theorem length_le_of_chunk_nil {file : List UInt8} {offset max : Nat}
    (h : (file.drop offset).take (max + 1) = []) : file.length ≤ offset := by
  rcases List.take_eq_nil_iff.mp h with h | h
  · exact absurd h (by omega)
  · exact List.drop_eq_nil_iff.mp h

theorem endTail_inv {f : Follow} (he : f.emitted = []) (hends : EndsLine newline f.file)
    (hread : Readable f.file) (k : Nat) : Inv (f.endTail k f.file.length f.file) := by
  obtain ⟨s, htext⟩ := Option.isSome_iff_exists.mp (hread.fromUtf8 hends)
  unfold Follow.endTail
  rw [htext]
  refine .idle rfl ?_ ?_
  · show ShownTo f.file f.file.length f.emitted f.file.length
    rw [he]
    exact shownTo_covered f.file
  · show EndsLine newline (f.file.take f.file.length)
    rw [List.take_length]
    exact hends

theorem read_inv {f f' : Follow} {max : Nat} (h : Inv f) (hs : f.read max = some f') :
    Inv f' := by
  unfold Follow.read at hs
  cases h with
  | @tail len buf hp he hl hbuf hends hread =>
    rw [hp] at hs
    simp only at hs
    split at hs
    next hnil =>
      obtain rfl := Option.some.inj hs
      have hfull : buf = f.file := hbuf.eq_of_length_le (length_le_of_chunk_nil hnil)
      rw [hfull, hl]
      exact endTail_inv he hends hread _
    next =>
      obtain rfl := Option.some.inj hs
      refine .tail rfl he hl ?_ hends hread
      obtain ⟨rest, hrest⟩ := hbuf
      rw [← hrest, List.drop_left]
      exact (List.prefix_append_right_inj buf).mpr (List.take_prefix _ _)
  | @pass len offset line hp hshown hl hline hends hread =>
    rw [hp] at hs
    simp only at hs
    have hin := hshown.inFile
    split at hs
    next hnil =>
      -- at the end of the file no line is open
      have hoff : offset = f.file.length := by
        have := length_le_of_chunk_nil hnil
        omega
      have hnone : line = [] := by
        rw [hline, hoff, List.take_length]
        exact hends
      obtain rfl := Option.some.inj hs
      unfold Follow.endOfFile
      rw [if_pos hnone, hl, ← hoff]
      refine .idle rfl hshown ?_
      show EndsLine newline (f.file.take offset)
      rw [hoff, List.take_length]
      exact hends
    next =>
      obtain rfl := Option.some.inj hs
      generalize hc : (f.file.drop offset).take (max + 1) = chunk
      have hpre : chunk <+: f.file.drop offset := hc ▸ List.take_prefix _ _
      have hsplit : f.file.drop offset = chunk ++ f.file.drop (offset + chunk.length) := by
        rw [← List.drop_drop]
        exact (List.prefix_iff_eq_append.mp hpre).symm
      -- the lines that the chunk completes, and those that come after it
      rw [hsplit, ← List.append_assoc] at hread
      have hlines := completeLines_append newline (line ++ chunk)
        (f.file.drop (offset + chunk.length))
      have hnow : Readable (line ++ chunk) := fun l hm =>
        hread l (by rw [hlines]; exact List.mem_append_left _ hm)
      have hlater : Readable (restLine newline (line ++ chunk) ++
          f.file.drop (offset + chunk.length)) := fun l hm =>
        hread l (by rw [hlines]; exact List.mem_append_right _ hm)
      obtain ⟨hok, hmap⟩ := emitLines_spec hnow
      unfold Follow.consume
      simp only [hok, if_true]
      refine .pass rfl ?_ hl ?_ hends hlater
      · exact hshown.chunk hpre (by rw [hmap, hline])
      · rw [(lines_chunk hpre).2, hline]
  | begin hp _ => rw [hp] at hs; exact absurd hs (by simp)
  | idle hp _ _ => rw [hp] at hs; exact absurd hs (by simp)

theorem step_inv (f : Follow) (l : Label) (f' : Follow) (h : Inv f) (hu : Undisturbed f l)
    (hs : f.step l = some f') : Inv f' := by
  cases l with
  | append bytes =>
    obtain rfl := Option.some.inj hs
    exact append_inv h hu
  | measure => exact measure_inv h hu hs
  | read max => exact read_inv h hs

/-! ## What an undisturbed run shows -/

theorem ShownTo.only {file : List UInt8} {covered offset : Nat} {emitted : List Str}
    (h : ShownTo file covered emitted offset) : emitted.map some <+:
      ((completeLines newline file).drop
        (completeLines newline (file.take covered)).length).map lineMessage := by
  rw [h.lines]
  obtain ⟨rest, hrest⟩ := completeLines_take newline file offset
  rw [← hrest, List.drop_append, List.map_append]
  exact List.prefix_append _ _

theorem Inv.showsOnce {f : Follow} (h : Inv f) : ShowsOnce f := by
  cases h with
  | begin hp he =>
    refine ⟨by simp [hp], ?_, fun hi => absurd hi (by simp [hp])⟩
    rw [he]
    exact List.nil_prefix
  | tail hp he _ _ _ _ =>
    refine ⟨by simp [hp], ?_, fun hi => absurd hi (by simp [hp])⟩
    rw [he]
    exact List.nil_prefix
  | idle hp hs _ =>
    refine ⟨by simp [hp], hs.only, fun _ hpos => ?_⟩
    have hlines := hs.lines
    rw [hpos, List.take_length] at hlines
    exact hlines
  | pass hp hs _ _ _ _ =>
    exact ⟨by simp [hp], hs.only, fun hi => absurd hi (by simp [hp])⟩

/-- Left alone between two passes, `follow` reads to the end of the file by itself. -/
theorem catches_up {f : Follow} (h : Inv f) (hp : f.phase = .idle)
    (hends : EndsLine newline f.file) (hread : Readable (f.file.drop f.pos)) :
    ∃ ls f', (∀ l ∈ ls, l = .measure ∨ ∃ max, l = .read max) ∧
      runs Follow.step f ls = some f' ∧ Inv f' ∧ f'.file = f.file ∧ f'.phase = .idle ∧
      f'.pos = f.file.length := by
  obtain ⟨hshown, hpos⟩ : ShownTo f.file f.covered f.emitted f.pos ∧
      EndsLine newline (f.file.take f.pos) := by
    cases h with
    | idle _ hs hends => exact ⟨hs, hends⟩
    | begin hp' _ => rw [hp] at hp'; exact absurd hp' (by simp)
    | tail hp' _ _ _ _ _ => rw [hp] at hp'; exact absurd hp' (by simp)
    | pass hp' _ _ _ _ _ => rw [hp] at hp'; exact absurd hp' (by simp)
  have hin := hshown.inFile
  by_cases hnew : f.file.length ≤ f.pos
  · exact ⟨[], f, by simp, rfl, h, rfl, hp, by omega⟩
  -- one read takes all there is, and the next finds the end of the file
  obtain ⟨hok, -⟩ := emitLines_spec hread
  have hmeasure : f.step .measure =
      some { f with phase := .pass f.file.length f.pos [] } := by
    show f.measure = _
    unfold Follow.measure
    rw [hp]
    simp only [if_neg (show ¬ f.file.length < f.pos by omega), if_neg hnew]
  have hrest : restLine newline (f.file.drop f.pos) = [] := by
    have happ := hpos.restLine_append (f.file.drop f.pos)
    rw [List.take_append_drop] at happ
    rw [← happ]
    exact hends
  have hchunk : (f.file.drop f.pos).take (f.file.length + 1) = f.file.drop f.pos := by
    apply List.take_of_length_le
    rw [List.length_drop]
    omega
  have hnonempty : f.file.drop f.pos ≠ [] := fun hnil => by
    have := List.drop_eq_nil_iff.mp hnil
    omega
  let f₁ : Follow := { f with phase := .pass f.file.length f.pos [] }
  let f₂ : Follow := f₁.consume f.file.length (f.pos + (f.file.drop f.pos).length)
    (f.file.drop f.pos)
  have hread₁ : f₁.step (.read f.file.length) = some f₂ := by
    show f₁.read f.file.length = _
    unfold Follow.read
    simp only [f₁, hchunk, if_neg hnonempty, List.nil_append]
    rfl
  have hf₂ : f₂ = { f with phase := .pass f.file.length f.file.length [], emitted := f.emitted ++
      (emitLines (completeLines newline (f.file.drop f.pos))).1 } := by
    have hlen : f.pos + (f.file.drop f.pos).length = f.file.length := by
      rw [List.length_drop]
      omega
    simp only [f₂, f₁, Follow.consume, hok, if_true, hrest, hlen]
  have hread₂ : f₂.step (.read 0) = some { f₂ with phase := .idle, pos := f.file.length } := by
    show f₂.read 0 = _
    rw [hf₂]
    unfold Follow.read
    simp [Follow.endOfFile]
  have hundisturbed : Undisturbed f .measure := by
    refine ⟨hends, ?_⟩
    unfold Follow.ahead
    rw [hp]
    exact hread
  have hinv₁ : Inv f₁ := measure_inv h hundisturbed hmeasure
  have hinv₂ : Inv f₂ := read_inv hinv₁ hread₁
  refine ⟨[.measure, .read f.file.length, .read 0],
    { f₂ with phase := .idle, pos := f.file.length }, ?_, ?_, read_inv hinv₂ hread₂, ?_, rfl, rfl⟩
  · simp
  · exact runs_cons.mpr ⟨f₁, hmeasure, runs_cons.mpr ⟨f₂, hread₁, runs_cons.mpr ⟨_, hread₂, rfl⟩⟩⟩
  · show f₂.file = f.file
    rw [hf₂]

/-- **`journalctl -f` shows every line once**, in every undisturbed run: at any time the
passes have shown the first of the lines due, in order, and all of them when the position
is the end of the file, where they get to by themselves. -/
theorem follow_shows_once (n : Option Nat) (file : List UInt8) (ls : List Label) (f : Follow)
    (hu : Along Follow.step Undisturbed { n := n, file := file } ls)
    (hr : runs Follow.step { n := n, file := file } ls = some f) :
    ShowsOnce f ∧ (f.phase = .idle → EndsLine newline f.file → Readable (f.file.drop f.pos) →
      ∃ ls f', (∀ l ∈ ls, l = .measure ∨ ∃ max, l = .read max) ∧
        runs Follow.step f ls = some f' ∧ f'.file = f.file ∧
        f'.emitted.map some = (dueLines f').map lineMessage) := by
  have hinv : Inv f := runs_inv step_inv (.begin rfl rfl) hu hr
  refine ⟨hinv.showsOnce, fun hp hends hread => ?_⟩
  obtain ⟨ls', f', howns, hrun, hinv', hfile, hidle, hpos⟩ := catches_up hinv hp hends hread
  exact ⟨ls', f', howns, hrun, hfile, hinv'.showsOnce.all hidle (by rw [hpos, hfile])⟩

/-- A line is appended between the two passes of a run. -/
def oneLine : List Label := [.measure, .append (ascii "a\n"), .measure, .read 9, .read 0]

theorem undisturbed_oneLine : Along Follow.step Undisturbed { n := none, file := [] } oneLine := by
  refine Along.cons ⟨rfl, by simp [Follow.ahead, Readable]⟩ rfl ?_
  refine Along.cons (fun h => absurd h (by decide)) rfl ?_
  refine Along.cons ⟨rfl, ?_⟩ rfl ?_
  · show Readable (ascii "a\n")
    intro line hline
    have hlines : completeLines newline (ascii "a\n") = [ascii "a"] := rfl
    rw [hlines, List.mem_singleton] at hline
    rw [hline]
    rfl
  exact Along.cons trivial rfl (Along.cons trivial rfl trivial)

theorem follow_shows_once_oneLine :
    ∃ f, runs Follow.step { n := none, file := [] } oneLine = some f ∧ ShowsOnce f := by
  obtain ⟨f, hf⟩ : ∃ f, runs Follow.step { n := none, file := [] } oneLine = some f := ⟨_, rfl⟩
  exact ⟨f, hf, (follow_shows_once none [] oneLine f undisturbed_oneLine hf).1⟩

/-- A line appended after the length is noted is shown by that pass and by the next. -/
theorem not_all_shown_once : ¬ ∀ (n : Option Nat) (file : List UInt8) (ls : List Label) (f : Follow),
    runs Follow.step { n := n, file := file } ls = some f → ShowsOnce f := by
  intro h
  obtain ⟨f, hf, hemitted, hfile, hcovered⟩ : ∃ f, runs Follow.step { n := none, file := [] }
      [.measure, .append (ascii "a\n"), .measure, .append (ascii "b\n"), .read 9, .read 0,
        .measure, .read 9] = some f ∧ f.emitted = ["a".toList, "b".toList, "b".toList] ∧
      f.file = ascii "a\nb\n" ∧ f.covered = 0 := ⟨_, rfl, rfl, rfl, rfl⟩
  have honly := (h none [] _ f hf).only.length_le
  unfold dueLines at honly
  rw [hemitted, hfile, hcovered] at honly
  exact absurd honly (by decide)

end Systeml.Journal
