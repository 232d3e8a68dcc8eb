import Systeml.Lib.Text

/-!
# Unit names

`UnitName::from_str` strips a known suffix, checks the characters of the stem
and splits it at the first `@`; `Display` (and so `filename`) puts the parts
back together. `filename_of_fromStr` is the fact everything else rests on: an
accepted string *is* the filename of the name it parses to.

What the character check lets through decides which paths a caller can reach
with a name: `validateChars` rejects nothing but whitespace, so `/` passes. The
consequence for the places that build paths from names is in `Load`.
-/

namespace Systeml.Unit

open Systeml.Lib

/-- Suffix-typed unit kinds. -/
inductive UnitKind where
  | service | socket | timer | path | target | mount
  | automount | swap | device | slice | scope
  deriving DecidableEq, Repr

namespace UnitKind

/-- Suffix including the leading `.`. -/
def suffix : UnitKind → Str
  | service => ".service".toList
  | socket => ".socket".toList
  | timer => ".timer".toList
  | path => ".path".toList
  | target => ".target".toList
  | mount => ".mount".toList
  | automount => ".automount".toList
  | swap => ".swap".toList
  | device => ".device".toList
  | slice => ".slice".toList
  | scope => ".scope".toList

/-- All known suffixes, longest-first for greedy matching. -/
def all : List UnitKind :=
  [automount, service, socket, target, device, mount, scope, slice, timer, path, swap]

/-- A suffix is `.` and letters, so it holds no separator. -/
theorem suffix_spec (k : UnitKind) :
    '/' ∉ k.suffix ∧ 2 < k.suffix.length ∧ '@' ∉ k.suffix := by
  cases k <;> decide

theorem mem_all (k : UnitKind) : k ∈ all := by
  cases k <;> decide

/-- The first kind with a suffix is the one it is the suffix of. -/
theorem find_suffix (k : UnitKind) : all.find? (fun k' => k'.suffix = k.suffix) = some k := by
  cases k <;> decide

theorem suffix_injective {k k' : UnitKind} (h : k.suffix = k'.suffix) : k = k' := by
  have hk := find_suffix k
  rw [h, find_suffix k'] at hk
  exact (Option.some.inj hk).symm

/-- A suffix begins at the last dot of the name. -/
theorem suffix_dot (k : UnitKind) : ∃ letters, k.suffix = '.' :: letters ∧ '.' ∉ letters :=
  ⟨k.suffix.tail, by cases k <;> decide⟩

end UnitKind

/-- A parsed unit name with optional template instance (`some []` is a bare
template `foo@.service`). -/
structure UnitName where
  /-- Stem before any `@` or suffix. -/
  stem : Str
  /-- Instance name between `@` and `.`. -/
  inst : Option Str
  /-- Unit kind from suffix. -/
  kind : UnitKind
  deriving DecidableEq, Repr

namespace UnitName

/-- Construct a plain (non-template) unit name. -/
def plain (stem : Str) (kind : UnitKind) : UnitName := ⟨stem, none, kind⟩

/-- Construct a template (uninstantiated) unit name. -/
def template (stem : Str) (kind : UnitKind) : UnitName := ⟨stem, some [], kind⟩

/-- True if this is an instantiated template (`foo@bar.service`). -/
def isInstance (n : UnitName) : Bool :=
  match n.inst with
  | some s => !s.isEmpty
  | none => false

/-- The template form of an instance: `foo@bar.service` to `foo@.service`. -/
def templateForm (n : UnitName) : Option UnitName :=
  if n.isInstance then some (template n.stem n.kind) else none

/-- The `Display` form, which is also the filename on disk. -/
def filename (n : UnitName) : Str :=
  match n.inst with
  | none => n.stem ++ n.kind.suffix
  | some i => n.stem ++ '@' :: i ++ n.kind.suffix

end UnitName

/-- Errors of the name parser. -/
inductive ParseError where
  | invalidUnitName (name : Str) (reason : String)
  deriving DecidableEq, Repr

/-- The first known suffix the string ends in, with what stands before it. -/
def splitKind (s : Str) : Option (UnitKind × Str) :=
  UnitKind.all.findSome? fun k => (stripSuffix s k.suffix).map fun stem => (k, stem)

/-- The characters the first arm of the `match` in `validate_chars` lists. -/
def isListed (c : Char) : Bool :=
  c == '@' || c == '-' || c == '_' || c == '.' || c == '\\' || c == ':' ||
    c.toNat ≤ 0x1f || c.toNat == 0x7f

/-- Character check of a stem. Only the alphanumeric test and the fallback arm
skip the whitespace test; a listed character still runs into it. -/
def validateChars : Str → Except String Unit
  | [] => .ok ()
  | c :: cs =>
    if isAsciiAlphanumeric c then validateChars cs
    else if !isListed c && (isAscii c && !isAsciiControl c && !isWhitespace c) then
      validateChars cs
    else if isWhitespace c then .error "unit name contains whitespace"
    else validateChars cs

/-- `UnitName::from_str`. -/
def fromStr (s : Str) : Except ParseError UnitName :=
  match splitKind s with
  | none => .error (.invalidUnitName s "no recognised unit suffix")
  | some (kind, stem) =>
    if stem = [] then .error (.invalidUnitName s "empty unit prefix")
    else match validateChars stem with
      | .error reason => .error (.invalidUnitName s reason)
      | .ok _ =>
        let (pre, inst) := match splitOnce '@' stem with
          | some (p, i) => (p, some i)
          | none => (stem, none)
        if pre = [] then .error (.invalidUnitName s "empty prefix before '@'")
        else .ok ⟨pre, inst, kind⟩

theorem splitKind_some {s stem : Str} {k : UnitKind} (h : splitKind s = some (k, stem)) :
    s = stem ++ k.suffix := by
  obtain ⟨k', -, hk'⟩ := List.exists_of_findSome?_eq_some h
  obtain ⟨t, ht, he⟩ := Option.map_eq_some_iff.mp hk'
  obtain ⟨rfl, rfl⟩ : k' = k ∧ t = stem := by simpa using he
  exact stripSuffix_eq_some.mp ht

/-- What acceptance says: the string is stem plus suffix, the stem passed the
character check, and the parts are the split of the stem at its first `@`. -/
theorem fromStr_ok {s : Str} {n : UnitName} (h : fromStr s = .ok n) :
    ∃ stem, s = stem ++ n.kind.suffix ∧ stem ≠ [] ∧ validateChars stem = .ok () ∧
      n.stem ≠ [] ∧
      ((n.inst = none ∧ n.stem = stem ∧ '@' ∉ stem) ∨
        (∃ i, n.inst = some i ∧ stem = n.stem ++ '@' :: i ∧ '@' ∉ n.stem)) := by
  unfold fromStr at h
  cases hk : splitKind s with
  | none => rw [hk] at h; simp at h
  | some ks =>
    obtain ⟨kind, stem⟩ := ks
    rw [hk] at h
    have hs : s = stem ++ kind.suffix := splitKind_some hk
    by_cases hstem : stem = []
    · simp [hstem] at h
    cases hv : validateChars stem with
    | error r => simp [hstem, hv] at h
    | ok u =>
      cases hsp : splitOnce '@' stem with
      | none =>
        have hn : n = ⟨stem, none, kind⟩ := by simpa [hstem, hv, hsp, eq_comm] using h
        subst hn
        exact ⟨stem, hs, hstem, hv, hstem, Or.inl ⟨rfl, rfl, splitOnce_eq_none.mp hsp⟩⟩
      | some pi =>
        obtain ⟨p, i⟩ := pi
        by_cases hp : p = []
        · simp [hstem, hv, hsp, hp] at h
        have hn : n = ⟨p, some i, kind⟩ := by simpa [hstem, hv, hsp, hp, eq_comm] using h
        subst hn
        obtain ⟨hst, hat⟩ := splitOnce_eq_some.mp hsp
        exact ⟨stem, hs, hstem, hv, hp, Or.inr ⟨i, rfl, hst, hat⟩⟩

/-- Formatting an accepted name gives the string back. -/
theorem filename_of_fromStr {s : Str} {n : UnitName} (h : fromStr s = .ok n) :
    n.filename = s := by
  obtain ⟨stem, rfl, -, -, -, ⟨hi, hst, -⟩ | ⟨i, hi, hst, -⟩⟩ := fromStr_ok h
  · simp [UnitName.filename, hi, hst]
  · simp [UnitName.filename, hi, hst]

/-! ## Parsing what was formatted -/

/-- Only one kind can be cut off a name. -/
theorem append_suffix_inj {s s' : Str} {k k' : UnitKind} (h : s ++ k.suffix = s' ++ k'.suffix) :
    s = s' ∧ k = k' := by
  obtain ⟨l, hk, hl⟩ := k.suffix_dot
  obtain ⟨l', hk', hl'⟩ := k'.suffix_dot
  rw [hk, hk'] at h
  obtain ⟨hs, he⟩ := append_sep_inj hl hl' h
  refine ⟨hs, UnitKind.suffix_injective ?_⟩
  rw [hk, hk', he]

theorem splitKind_append (s : Str) (k : UnitKind) : splitKind (s ++ k.suffix) = some (k, s) := by
  cases hs : splitKind (s ++ k.suffix) with
  | none =>
    have hk := List.findSome?_eq_none_iff.mp hs k k.mem_all
    rw [stripSuffix_eq_some.mpr rfl] at hk
    exact absurd hk (by simp)
  | some ks =>
    obtain ⟨k', s'⟩ := ks
    obtain ⟨rfl, rfl⟩ := append_suffix_inj (splitKind_some hs)
    rfl

theorem isWhitespace_of_alphanumeric {c : Char} (h : isAsciiAlphanumeric c = true) :
    isWhitespace c = false := by
  rcases Bool.or_eq_true_iff.mp h with h | h
  · exact isWhitespace_of_alpha h
  · exact isWhitespace_of_digit h

/-- Nothing but white space is refused. -/
theorem validateChars_ok_iff : ∀ {s : Str},
    validateChars s = .ok () ↔ ∀ c ∈ s, isWhitespace c = false
  | [] => by simp [validateChars]
  | c :: cs => by
    rw [List.forall_mem_cons, ← validateChars_ok_iff (s := cs), validateChars]
    by_cases halnum : isAsciiAlphanumeric c = true
    · rw [if_pos halnum, isWhitespace_of_alphanumeric halnum]
      simp
    rw [if_neg halnum]
    cases hspace : isWhitespace c with
    | true => simp
    | false => simp

section Formatted

variable {n : UnitName} {stem : Str}

/-- The rest of the parser, once the kind is cut off. -/
theorem fromStr_append (hstem : stem ≠ []) (hspace : ∀ c ∈ stem, isWhitespace c = false)
    (k : UnitKind) : fromStr (stem ++ k.suffix) =
      match splitOnce '@' stem with
      | none => .ok ⟨stem, none, k⟩
      | some (p, i) =>
        if p = [] then .error (.invalidUnitName (stem ++ k.suffix) "empty prefix before '@'")
        else .ok ⟨p, some i, k⟩ := by
  unfold fromStr
  rw [splitKind_append]
  simp only [if_neg hstem, validateChars_ok_iff.mpr hspace]
  cases splitOnce '@' stem with
  | none => exact if_neg hstem
  | some pi => rfl

/-- The first `@` stands behind the stem, whatever the instance holds. -/
theorem fromStr_filename (hstem : n.stem ≠ []) (hat : '@' ∉ n.stem)
    (hspace : ∀ c ∈ n.stem, isWhitespace c = false)
    (hinst : ∀ i, n.inst = some i → ∀ c ∈ i, isWhitespace c = false) :
    fromStr n.filename = .ok n := by
  obtain ⟨stem, inst, kind⟩ := n
  cases inst with
  | none =>
    show fromStr (stem ++ kind.suffix) = .ok _
    rw [fromStr_append hstem hspace, splitOnce_eq_none.mpr hat]
  | some i =>
    have hall : ∀ c ∈ stem ++ '@' :: i, isWhitespace c = false := by
      intro c hc
      rcases List.mem_append.mp hc with hc | hc
      · exact hspace c hc
      · rcases List.mem_cons.mp hc with rfl | hc
        · rfl
        · exact hinst i rfl c hc
    have hcut : splitOnce '@' (stem ++ '@' :: i) = some (stem, i) :=
      splitOnce_eq_some.mpr ⟨rfl, hat⟩
    show fromStr (stem ++ '@' :: i ++ kind.suffix) = .ok _
    rw [fromStr_append (by simp) hall, hcut]
    exact if_neg hstem

end Formatted

/-- **Names round trip.** An accepted text is the form of the name it is read as, and a
name whose stem is there, without `@` and white space, is read back from its form; so
names that were read have different forms. -/
theorem fromStr_roundTrip :
    (∀ s n, fromStr s = .ok n → n.filename = s) ∧
    (∀ n : UnitName, n.stem ≠ [] → '@' ∉ n.stem → (∀ c ∈ n.stem, isWhitespace c = false) →
      (∀ i, n.inst = some i → ∀ c ∈ i, isWhitespace c = false) →
      fromStr n.filename = .ok n) ∧
    ∀ s s' n n', fromStr s = .ok n → fromStr s' = .ok n' → n.filename = n'.filename →
      n = n' := by
  refine ⟨fun s n h => filename_of_fromStr h,
    fun n hstem hat hspace hinst => fromStr_filename hstem hat hspace hinst, ?_⟩
  intro s s' n n' h h' he
  rw [filename_of_fromStr h, filename_of_fromStr h'] at he
  rw [he, h'] at h
  exact (Except.ok.inj h).symm

/-- An instance that looks like a name of its own is read back. -/
theorem fromStr_roundTrip_mount :
    fromStr "foo@a@b.mount.service".toList = .ok ⟨"foo".toList, some "a@b.mount".toList, .service⟩ :=
  fromStr_roundTrip.2.1 ⟨"foo".toList, some "a@b.mount".toList, .service⟩ (by decide)
    (by decide) (eq_false_of_any (by decide)) (by
      intro i hi
      obtain rfl := Option.some.inj hi
      exact eq_false_of_any (by decide))

end Systeml.Unit
