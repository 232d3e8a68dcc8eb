/-!
# Text and paths as lists of characters

A string is its list of Unicode scalar values (`Str`). The operations here are
the few that string-handling code keeps using: strip a suffix, split once at a
separator, cut a path into components, join a file name onto a directory. Each
comes with the one lemma that says what it returns, so no caller unfolds it.
-/

namespace Systeml.Lib

/-- A string, as the list of its Unicode scalar values. -/
abbrev Str := List Char

instance : LawfulBEq Str := inferInstanceAs (LawfulBEq (List Char))

/-- The Unicode `White_Space` property. -/
def isWhitespace (c : Char) : Bool :=
  let n := c.toNat
  (0x9 ≤ n && n ≤ 0xd) || n == 0x20 || n == 0x85 || n == 0xa0 || n == 0x1680 ||
    (0x2000 ≤ n && n ≤ 0x200a) || n == 0x2028 || n == 0x2029 || n == 0x202f ||
    n == 0x205f || n == 0x3000

/-- An ASCII letter or digit. -/
def isAsciiAlphanumeric (c : Char) : Bool :=
  c.isAlpha || c.isDigit

/-- Code points below `0x80`. -/
def isAscii (c : Char) : Bool := c.toNat < 0x80

/-- The ASCII control characters, `DEL` included. -/
def isAsciiControl (c : Char) : Bool := c.toNat < 0x20 || c.toNat == 0x7f

/-! ## Ranges of characters -/

theorem isDigit_iff {c : Char} : c.isDigit = true ↔ 48 ≤ c.toNat ∧ c.toNat ≤ 57 := by
  simp only [Char.isDigit, ge_iff_le, Bool.and_eq_true, decide_eq_true_eq,
    UInt32.le_iff_toNat_le]
  exact Iff.rfl

theorem isAlpha_iff {c : Char} : c.isAlpha = true ↔
    (65 ≤ c.toNat ∧ c.toNat ≤ 90) ∨ (97 ≤ c.toNat ∧ c.toNat ≤ 122) := by
  have halpha : c.isAlpha = (c.isUpper || c.isLower) := rfl
  have hupper : c.isUpper = decide ('A'.val ≤ c.val ∧ c.val ≤ 'Z'.val) := rfl
  have hlower : c.isLower = (decide ('a'.val ≤ c.val) && decide (c.val ≤ 'z'.val)) := rfl
  simp only [halpha, hupper, hlower, Bool.or_eq_true, Bool.and_eq_true, decide_eq_true_eq,
    UInt32.le_iff_toNat_le]
  exact Iff.rfl

theorem isWhitespace_of_alpha {c : Char} (h : c.isAlpha = true) : isWhitespace c = false := by
  have hrange := isAlpha_iff.mp h
  simp only [isWhitespace, Bool.or_eq_false_iff, Bool.and_eq_false_iff, decide_eq_false_iff_not,
    beq_eq_false_iff_ne]
  omega

theorem isWhitespace_of_digit {c : Char} (h : c.isDigit = true) : isWhitespace c = false := by
  have hrange := isDigit_iff.mp h
  simp only [isWhitespace, Bool.or_eq_false_iff, Bool.and_eq_false_iff, decide_eq_false_iff_not,
    beq_eq_false_iff_ne]
  omega

theorem isAlpha_of_digit {c : Char} (h : c.isDigit = true) : c.isAlpha = false := by
  have hdigit := isDigit_iff.mp h
  rw [Bool.eq_false_iff]
  intro halpha
  have hrange := isAlpha_iff.mp halpha
  omega

theorem toLower_of_digit {c : Char} (h : c.isDigit = true) : c.toLower = c := by
  have hrange := isDigit_iff.mp h
  unfold Char.toLower
  rw [dif_neg]
  rintro ⟨hle, -⟩
  have hupper : 65 ≤ c.toNat := UInt32.le_iff_toNat_le.mp hle
  omega

/-! ## Runs of characters -/

/-- Where the first character of a text is from. -/
theorem head_append_cases {s t : Str} {c : Char} (h : (s ++ t).head? = some c) :
    c ∈ s ∨ s = [] ∧ t.head? = some c := by
  cases s with
  | nil => exact Or.inr ⟨rfl, h⟩
  | cons a s =>
    obtain rfl := Option.some.inj h
    exact Or.inl (List.mem_cons_self ..)

theorem eq_false_of_any {p : Char → Bool} {s : Str} (h : s.any p = false) :
    ∀ c ∈ s, p c = false := fun c hc => Bool.eq_false_iff.mpr (List.any_eq_false.mp h c hc)

/-- A run of characters ends where the next one is no more of them. -/
theorem span_append {p : Char → Bool} {run : Str} (rest : Str) (hrun : ∀ c ∈ run, p c = true)
    (hrest : ∀ c, rest.head? = some c → p c = false) :
    (run ++ rest).takeWhile p = run ∧ (run ++ rest).dropWhile p = rest := by
  rw [List.takeWhile_append_of_pos hrun, List.dropWhile_append_of_pos hrun]
  cases rest with
  | nil => exact ⟨List.append_nil run, rfl⟩
  | cons c rest =>
    have hc : ¬ p c = true := by simp [hrest c rfl]
    rw [List.takeWhile_cons_of_neg hc, List.dropWhile_cons_of_neg hc]
    exact ⟨List.append_nil run, rfl⟩

/-! ## Suffixes -/

/-- `s` without its suffix `suf`, if it has it. -/
def stripSuffix (s suf : Str) : Option Str :=
  if suf.isSuffixOf s then some (s.take (s.length - suf.length)) else none

theorem stripSuffix_eq_some {s suf t : Str} :
    stripSuffix s suf = some t ↔ s = t ++ suf := by
  unfold stripSuffix
  constructor
  · intro h
    split at h
    next hs =>
      obtain ⟨u, rfl⟩ := List.isSuffixOf_iff_suffix.mp hs
      have hu : u = t := by simpa using h
      rw [hu]
    next => exact absurd h (by simp)
  · rintro rfl
    rw [if_pos (List.isSuffixOf_iff_suffix.mpr (List.suffix_append t suf))]
    simp

/-! ## Splitting at a separator -/

/-- Split at the first occurrence of `c`. -/
def splitOnce (c : Char) : Str → Option (Str × Str)
  | [] => none
  | x :: xs =>
    if x = c then some ([], xs)
    else (splitOnce c xs).map fun p => (x :: p.1, p.2)

theorem splitOnce_eq_none {c : Char} : ∀ {s : Str}, splitOnce c s = none ↔ c ∉ s
  | [] => by simp [splitOnce]
  | x :: xs => by
    unfold splitOnce
    by_cases hx : x = c
    · simp [hx]
    · rw [if_neg hx, Option.map_eq_none_iff, splitOnce_eq_none, List.mem_cons, not_or]
      exact ⟨fun h => ⟨fun e => hx e.symm, h⟩, fun h => h.2⟩

theorem splitOnce_eq_some {c : Char} : ∀ {s p q : Str},
    splitOnce c s = some (p, q) ↔ s = p ++ c :: q ∧ c ∉ p
  | [], p, q => by simp [splitOnce]
  | x :: xs, p, q => by
    unfold splitOnce
    by_cases hx : x = c
    · rw [if_pos hx]
      constructor
      · intro h
        obtain ⟨rfl, rfl⟩ : [] = p ∧ xs = q := by simpa using h
        exact ⟨by rw [hx]; rfl, by simp⟩
      · rintro ⟨hs, hp⟩
        cases p with
        | nil =>
          obtain ⟨-, rfl⟩ : x = c ∧ xs = q := by simpa using hs
          rfl
        | cons y ys =>
          have hy : x = y := by simpa using congrArg List.head? hs
          exact absurd (by rw [← hy, hx]; exact List.mem_cons_self ..) hp
    · rw [if_neg hx]
      constructor
      · intro h
        obtain ⟨⟨a, b⟩, hab, he⟩ := Option.map_eq_some_iff.mp h
        obtain ⟨rfl, rfl⟩ : x :: a = p ∧ b = q := by simpa using he
        obtain ⟨rfl, hc⟩ := splitOnce_eq_some.mp hab
        exact ⟨rfl, by simp [hc, eq_comm (a := c), hx]⟩
      · rintro ⟨hs, hp⟩
        cases p with
        | nil => exact absurd (by simpa using congrArg List.head? hs) hx
        | cons y ys =>
          obtain ⟨rfl, hxs⟩ : x = y ∧ xs = ys ++ c :: q := by simpa using hs
          have hys : c ∉ ys := fun hm => hp (List.mem_cons_of_mem _ hm)
          rw [splitOnce_eq_some.mpr ⟨hxs, hys⟩]
          rfl

/-- A text is cut at its last separator in one way only. -/
theorem append_sep_inj {c : Char} {s s' t t' : Str} (ht : c ∉ t) (ht' : c ∉ t')
    (h : s ++ c :: t = s' ++ c :: t') : s = s' ∧ t = t' := by
  have hrev : t.reverse ++ c :: s.reverse = t'.reverse ++ c :: s'.reverse := by
    simpa using congrArg List.reverse h
  have hcut : splitOnce c (t.reverse ++ c :: s.reverse) = some (t.reverse, s.reverse) :=
    splitOnce_eq_some.mpr ⟨rfl, by simpa using ht⟩
  have hcut' : splitOnce c (t'.reverse ++ c :: s'.reverse) = some (t'.reverse, s'.reverse) :=
    splitOnce_eq_some.mpr ⟨rfl, by simpa using ht'⟩
  rw [hrev, hcut'] at hcut
  obtain ⟨he, he'⟩ := Prod.mk.inj (Option.some.inj hcut)
  exact ⟨(List.reverse_inj.mp he').symm, (List.reverse_inj.mp he).symm⟩

/-- The parts of `s` between the occurrences of `c` (one more than there are). -/
def splitOn (c : Char) : Str → List Str
  | [] => [[]]
  | x :: xs =>
    if x = c then [] :: splitOn c xs
    else match splitOn c xs with
      | [] => [[x]]
      | y :: ys => (x :: y) :: ys

/-- A text without the separator is its only part. -/
theorem splitOn_of_not_mem {c : Char} : ∀ {s : Str}, c ∉ s → splitOn c s = [s]
  | [], _ => rfl
  | x :: xs, h => by
    have hx : x ≠ c := fun e => h (by rw [e]; exact List.mem_cons_self ..)
    have ih := splitOn_of_not_mem (s := xs) fun hm => h (List.mem_cons_of_mem _ hm)
    rw [splitOn, if_neg hx, ih]

theorem splitOn_ne_nil {c : Char} : ∀ (s : Str), splitOn c s ≠ []
  | [] => by simp [splitOn]
  | x :: xs => by
    unfold splitOn
    split
    · simp
    · split <;> simp

/-- The parts on both sides of a separator are independent. -/
theorem splitOn_append_sep {c : Char} : ∀ (s t : Str),
    splitOn c (s ++ c :: t) = splitOn c s ++ splitOn c t
  | [], t => by simp [splitOn]
  | x :: xs, t => by
    have ih := splitOn_append_sep (c := c) xs t
    by_cases hx : x = c
    · simp [splitOn, hx, ih]
    · rw [List.cons_append, splitOn, if_neg hx, ih, splitOn, if_neg hx]
      cases hs : splitOn c xs with
      | nil => exact absurd hs (splitOn_ne_nil xs)
      | cons y ys => rfl

/-- A part of a text is no longer than the text, and shorter if a separator was cut. -/
theorem length_of_mem_splitOn {c : Char} : ∀ {s l : Str}, l ∈ splitOn c s →
    l.length ≤ s.length ∧ (c ∈ s → l.length < s.length)
  | [], l, h => by
    rw [List.mem_singleton.mp h]
    exact ⟨Nat.le_refl _, fun hc => absurd hc List.not_mem_nil⟩
  | x :: xs, l, h => by
    unfold splitOn at h
    by_cases hx : x = c
    · rw [if_pos hx] at h
      cases List.mem_cons.mp h with
      | inl he =>
        rw [he]
        exact ⟨Nat.zero_le _, fun _ => Nat.zero_lt_succ _⟩
      | inr h =>
        obtain ⟨hle, -⟩ := length_of_mem_splitOn h
        rw [List.length_cons]
        exact ⟨by omega, fun _ => by omega⟩
    · rw [if_neg hx] at h
      cases hs : splitOn c xs with
      | nil => exact absurd hs (splitOn_ne_nil xs)
      | cons y ys =>
        rw [hs] at h
        have hparts : ∀ l ∈ y :: ys, l.length ≤ xs.length ∧ (c ∈ xs → l.length < xs.length) :=
          fun l hl => length_of_mem_splitOn (hs ▸ hl)
        have hcxs : c ∈ x :: xs → c ∈ xs := by
          intro hc
          cases List.mem_cons.mp hc with
          | inl he => exact absurd he.symm hx
          | inr hc => exact hc
        cases List.mem_cons.mp h with
        | inl he =>
          rw [he, List.length_cons, List.length_cons]
          obtain ⟨hle, hlt⟩ := hparts y List.mem_cons_self
          exact ⟨by omega, fun hc => by have := hlt (hcxs hc); omega⟩
        | inr h =>
          obtain ⟨hle, hlt⟩ := hparts l (List.mem_cons_of_mem y h)
          rw [List.length_cons]
          exact ⟨by omega, fun hc => by omega⟩

/-- The last part of a text that ends in a given text without separators ends in it. -/
theorem getLast_splitOn_append {c : Char} {k : Str} (hk : c ∉ k) : ∀ s : Str,
    ∃ p, (splitOn c (s ++ k)).getLast? = some (p ++ k)
  | [] => ⟨[], by rw [List.nil_append, splitOn_of_not_mem hk]; rfl⟩
  | x :: xs => by
    obtain ⟨p, hp⟩ := getLast_splitOn_append hk xs
    rw [List.cons_append]
    unfold splitOn
    cases hs : splitOn c (xs ++ k) with
    | nil => exact absurd hs (splitOn_ne_nil _)
    | cons y ys =>
      rw [hs] at hp
      split
      next => exact ⟨p, by rw [List.getLast?_cons_cons]; exact hp⟩
      next =>
        cases ys with
        | nil =>
          obtain rfl : y = p ++ k := by simpa using hp
          exact ⟨x :: p, rfl⟩
        | cons z zs => exact ⟨p, by rw [List.getLast?_cons_cons] at hp ⊢; exact hp⟩

/-- A separator at the end of each part ends the last one too. -/
theorem splitOn_flatMap_sep {c : Char} : ∀ {ls : List Str} (t : Str), (∀ l ∈ ls, c ∉ l) →
    splitOn c (ls.flatMap (· ++ [c]) ++ t) = ls ++ splitOn c t
  | [], t, _ => rfl
  | l :: ls, t, h => by
    have ih := splitOn_flatMap_sep t fun l' hl' => h l' (List.mem_cons_of_mem l hl')
    rw [List.flatMap_cons, List.append_assoc, List.append_assoc, List.singleton_append,
      splitOn_append_sep, ih, splitOn_of_not_mem (h l List.mem_cons_self)]
    rfl

/-- No part holds the separator. -/
theorem notMem_of_mem_splitOn {c : Char} : ∀ {s l : Str}, l ∈ splitOn c s → c ∉ l
  | [], l, h => by
    rw [List.mem_singleton.mp h]
    exact List.not_mem_nil
  | x :: xs, l, h => by
    unfold splitOn at h
    by_cases hx : x = c
    · rw [if_pos hx] at h
      cases List.mem_cons.mp h with
      | inl he =>
        rw [he]
        exact List.not_mem_nil
      | inr h => exact notMem_of_mem_splitOn h
    · rw [if_neg hx] at h
      cases hs : splitOn c xs with
      | nil => exact absurd hs (splitOn_ne_nil xs)
      | cons y ys =>
        rw [hs] at h
        have hparts : ∀ l ∈ y :: ys, c ∉ l := fun l hl => notMem_of_mem_splitOn (hs ▸ hl)
        cases List.mem_cons.mp h with
        | inl he =>
          rw [he, List.mem_cons, not_or]
          exact ⟨fun e => hx e.symm, hparts y List.mem_cons_self⟩
        | inr h => exact hparts l (List.mem_cons_of_mem y h)

/-- Parts without the separator, put together and cut again. -/
theorem splitOn_intercalate {c : Char} : ∀ {ls : List Str}, ls ≠ [] → (∀ l ∈ ls, c ∉ l) →
    splitOn c (List.intercalate [c] ls) = ls
  | [], h, _ => absurd rfl h
  | [l], _, h => by
    rw [List.intercalate_singleton]
    exact splitOn_of_not_mem (h l List.mem_cons_self)
  | l :: l' :: ls, _, h => by
    have ih := splitOn_intercalate (List.cons_ne_nil l' ls) fun x hx =>
      h x (List.mem_cons_of_mem l hx)
    rw [List.intercalate_cons_cons, List.append_assoc, List.singleton_append, splitOn_append_sep,
      ih, splitOn_of_not_mem (h l List.mem_cons_self)]
    rfl

/-! ## Lines and numbers -/

/-- `s` without leading and trailing white space. -/
def trim (s : Str) : Str :=
  ((s.dropWhile isWhitespace).reverse.dropWhile isWhitespace).reverse

/-- `s` without leading white space. -/
def trimStart (s : Str) : Str := s.dropWhile isWhitespace

/-- `s` without trailing white space. -/
def trimEnd (s : Str) : Str := (s.reverse.dropWhile isWhitespace).reverse

theorem trim_eq (s : Str) : trim s = trimEnd (trimStart s) := rfl

theorem trimStart_suffix (s : Str) : trimStart s <:+ s := List.dropWhile_suffix _

theorem trimEnd_isPrefix (s : Str) : trimEnd s <+: s := by
  have h := List.dropWhile_suffix isWhitespace (l := s.reverse)
  have hrev := List.reverse_prefix.mpr h
  rwa [List.reverse_reverse] at hrev

theorem trim_subset (s : Str) : ∀ c ∈ trim s, c ∈ s := fun _ hc =>
  (trimStart_suffix s).subset ((trimEnd_isPrefix _).subset hc)

theorem head_trimStart {s : Str} {c : Char} (h : (trimStart s).head? = some c) :
    isWhitespace c = false := by
  have hd := List.head?_dropWhile_not isWhitespace s
  rw [show (s.dropWhile isWhitespace).head? = some c from h] at hd
  exact hd

theorem getLast_trimEnd {s : Str} {c : Char} (h : (trimEnd s).getLast? = some c) :
    isWhitespace c = false := by
  unfold trimEnd at h
  rw [List.getLast?_reverse] at h
  exact head_trimStart h

theorem trimStart_of_head {s : Str} (h : ∀ c, s.head? = some c → isWhitespace c = false) :
    trimStart s = s := by
  cases s with
  | nil => rfl
  | cons c s =>
    unfold trimStart
    rw [List.dropWhile_cons_of_neg]
    rw [h c rfl]
    exact Bool.false_ne_true

theorem trimEnd_of_getLast {s : Str} (h : ∀ c, s.getLast? = some c → isWhitespace c = false) :
    trimEnd s = s := by
  unfold trimEnd
  have hrev : trimStart s.reverse = s.reverse := trimStart_of_head fun c hc => h c (by
    rw [← List.head?_reverse]
    exact hc)
  rw [show s.reverse.dropWhile isWhitespace = s.reverse from hrev, List.reverse_reverse]

/-- Neither the first nor the last character is white space. -/
structure Trimmed (s : Str) : Prop where
  head : ∀ c, s.head? = some c → isWhitespace c = false
  last : ∀ c, s.getLast? = some c → isWhitespace c = false

theorem Trimmed.trim_eq {s : Str} (h : Trimmed s) : trim s = s := by
  rw [Lib.trim_eq, trimStart_of_head h.head, trimEnd_of_getLast h.last]

theorem trimmed_trim (s : Str) : Trimmed (trim s) where
  head := by
    intro c hc
    -- what is cut at the end leaves the head
    have hpre := trimEnd_isPrefix (trimStart s)
    cases ht : trim s with
    | nil =>
      rw [ht] at hc
      exact absurd hc (by simp)
    | cons x xs =>
      rw [ht] at hc
      obtain rfl := Option.some.inj hc
      obtain ⟨t, he⟩ := hpre
      rw [← trim_eq, ht] at he
      exact head_trimStart (s := s) (by rw [← he]; rfl)
  last := fun _ hc => getLast_trimEnd hc

/-- White space at the front leaves the end of a text. -/
theorem getLast_trim_of_trimEnd {s : Str} {c : Char} (h : (trim s).getLast? = some c) :
    (trimEnd s).getLast? = some c := by
  have hsplit : s.takeWhile isWhitespace ++ trimStart s = s := List.takeWhile_append_dropWhile
  have hne : trim s ≠ [] := by
    intro he
    rw [he] at h
    exact absurd h (by simp)
  have hend : trimEnd s = s.takeWhile isWhitespace ++ trim s := by
    unfold trimEnd
    rw [← hsplit, List.reverse_append, List.dropWhile_append, if_neg]
    · rw [List.reverse_append, List.reverse_reverse, hsplit]
      rfl
    · intro hnil
      exact hne (by
        show ((trimStart s).reverse.dropWhile isWhitespace).reverse = []
        rw [List.isEmpty_iff.mp hnil]
        rfl)
  rw [hend, List.getLast?_append, h]
  rfl

/-- A text that starts with what cutting leaves keeps its head. -/
theorem head_of_trim {s : Str} {c : Char} (h : (trim s).head? = some c)
    (hs : ∀ c, s.head? = some c → isWhitespace c = false) : s.head? = some c := by
  obtain ⟨t, ht⟩ := trimEnd_isPrefix (trimStart s)
  rw [← trim_eq, trimStart_of_head hs] at ht
  rw [← ht, List.head?_append, h]
  rfl

theorem getLast_of_trim {s : Str} {c : Char} (h : (trim s).getLast? = some c)
    (hs : ∀ c, s.getLast? = some c → isWhitespace c = false) : s.getLast? = some c := by
  have hend := getLast_trim_of_trimEnd h
  rwa [trimEnd_of_getLast hs] at hend

/-- The lines of the parts between line feeds: a carriage return before a line
feed goes with it, and nothing after the last one is no line. -/
def linesOf : List Str → List Str
  | [] => []
  | [last] => if last = [] then [] else [last]
  | l :: ls => (stripSuffix l ['\r']).getD l :: linesOf ls

/-- `s.lines()`. -/
def lines (s : Str) : List Str := linesOf (splitOn '\n' s)

/-- The text of valid UTF-8 bytes. -/
def fromUtf8 (bytes : List UInt8) : Option Str :=
  (String.fromUTF8? ⟨bytes.toArray⟩).map String.toList

/-- The bytes of an ASCII text. -/
def ascii (s : String) : List UInt8 := s.toList.map fun c => c.toNat.toUInt8

/-- A decimal numeral of one digit at least. -/
def parseDigits (s : Str) : Option Nat :=
  if s ≠ [] ∧ s.all Char.isDigit = true then
    some (s.foldl (fun n c => 10 * n + (c.toNat - '0'.toNat)) 0)
  else none

theorem isDigit_of_toDigits {n : Nat} : ∀ c ∈ Nat.toDigits 10 n, c.isDigit = true := fun _ hc =>
  Nat.isDigit_of_mem_toDigits (by decide) (by decide) hc

theorem parseDigits_toDigits (n : Nat) : parseDigits (Nat.toDigits 10 n) = some n := by
  unfold parseDigits
  rw [if_pos ⟨Nat.toDigits_ne_nil, List.all_eq_true.mpr isDigit_of_toDigits⟩]
  exact congrArg some Nat.ofDigitChars_ten_toDigits

/-- A signed numeral in `[lo, hi]`; `+` is allowed. -/
def parseInt (lo hi : Int) (s : Str) : Option Int :=
  let n : Option Int := match s with
    | '-' :: s => (parseDigits s).map fun n => -(n : Int)
    | '+' :: s => (parseDigits s).map fun n => (n : Int)
    | s => (parseDigits s).map fun n => (n : Int)
  n.filter fun n => lo ≤ n && n ≤ hi

/-- `s.parse::<i32>()`. -/
def parseI32 (s : Str) : Option Int := parseInt (-2147483648) 2147483647 s

/-- `s.parse::<u64>()`: no minus sign, not even before a zero. -/
def parseU64 (s : Str) : Option Nat :=
  if s.head? = some '-' then none else (parseInt 0 18446744073709551615 s).map Int.toNat

/-! ## Paths -/

/-- A path that starts at the root replaces whatever it is joined to. -/
def isAbsolute (p : Str) : Bool := p.head? == some '/'

/-- `base.join(p)`: an absolute `p` wins, otherwise one separator is put
between the two unless `base` is empty or already ends in one. -/
def joinPath (base p : Str) : Str :=
  if isAbsolute p then p
  else if base = [] then p
  else if base.getLast? = some '/' then base ++ p
  else base ++ '/' :: p

/-- The named components of a path: separators and `.` name nothing. -/
def components (p : Str) : List Str :=
  (splitOn '/' p).filter fun c => c != [] && c != ['.']

/-- A file name that names one entry of the directory it is joined to. -/
structure PlainName (f : Str) : Prop where
  nonempty : f ≠ []
  noSlash : '/' ∉ f
  notDot : f ≠ ['.']
  notDotDot : f ≠ ['.', '.']

theorem PlainName.notAbsolute {f : Str} (h : PlainName f) : isAbsolute f = false := by
  cases f with
  | nil => rfl
  | cons x xs =>
    have hx : x ≠ '/' := fun e => h.noSlash (by rw [e]; exact List.mem_cons_self ..)
    simp [isAbsolute, hx]

theorem components_of_plain {f : Str} (h : PlainName f) : components f = [f] := by
  simp [components, splitOn_of_not_mem h.noSlash, h.nonempty, h.notDot]

theorem components_append_sep (s t : Str) :
    components (s ++ '/' :: t) = components s ++ components t := by
  rw [components, splitOn_append_sep, List.filter_append]
  rfl

/-- Joining puts the components of a relative path behind those of the base. -/
theorem components_join {base f : Str} (h : isAbsolute f = false) :
    components (joinPath base f) = components base ++ components f := by
  unfold joinPath
  rw [h, if_neg Bool.false_ne_true]
  split
  next hb =>
    rw [hb]
    rfl
  next =>
    split
    next hl =>
      obtain ⟨b, rfl⟩ : ∃ b, base = b ++ ['/'] := List.getLast?_eq_some_iff.mp hl
      rw [List.append_assoc, List.singleton_append, components_append_sep,
        components_append_sep]
      simp [components, splitOn]
    next => exact components_append_sep base f

/-- The last component of a joined path is that of its second part. -/
theorem getLast_components_join {base f : Str} (h : components f ≠ []) :
    (components (joinPath base f)).getLast? = (components f).getLast? := by
  cases ha : isAbsolute f with
  | true => rw [joinPath, ha, if_pos rfl]
  | false =>
    rw [components_join ha, List.getLast?_append]
    cases hl : (components f).getLast? with
    | none => exact absurd (List.getLast?_eq_none_iff.mp hl) h
    | some c => rfl

/-- Joining a plain name adds exactly that component. -/
theorem components_joinPath {base f : Str} (h : PlainName f) :
    components (joinPath base f) = components base ++ [f] := by
  rw [components_join h.notAbsolute, components_of_plain h]

end Systeml.Lib
