import Systeml.Lib.Escape
import Systeml.Unit.Name

/-!
# Object paths of units

A unit's object on the bus is found under a path that `unit_object_path` builds from its
filename: bytes other than letters, digits and `_` become `_` and two hexadecimal digits.
Such a path is always valid. But `_` itself is not escaped, so a name can spell the escape
of another (`unitObjectPath_ne_iff`).

The type that checks a path belongs to the bus library: what it accepts is a parameter.
-/

namespace Systeml.Bus

open Systeml.Lib Systeml.Unit

/-! ## Valid paths -/

/-- A character of a path element. -/
def isElementChar (c : Char) : Bool := isAsciiAlphanumeric c || c == '_'

/-- What the bus specification calls a valid object path: a slash, and unless it is the
root, elements of letters, digits and `_` with single slashes between them. -/
def ValidObjectPath : Str → Prop
  | '/' :: rest =>
    rest = [] ∨ ∀ e ∈ splitOn '/' rest, e ≠ [] ∧ ∀ c ∈ e, isElementChar c = true
  | _ => False

/-- The elements of a valid path. -/
def validElements (rest : Str) : Bool :=
  rest.isEmpty || (splitOn '/' rest).all fun e => !e.isEmpty && e.all isElementChar

theorem validElements_iff {rest : Str} :
    validElements rest = true ↔ ValidObjectPath ('/' :: rest) := by
  simp [validElements, ValidObjectPath]

instance : ∀ p : Str, Decidable (ValidObjectPath p)
  | [] => .isFalse id
  | c :: rest =>
    if hc : c = '/' then decidable_of_iff (validElements rest = true) (hc ▸ validElements_iff)
    else .isFalse fun h => hc (by
      unfold ValidObjectPath at h
      split at h
      next he => exact (List.cons.inj he).1
      next => exact h.elim)

/-! ## The escape -/

/-- The bytes of a text. -/
def utf8 (s : Str) : List UInt8 := s.flatMap String.utf8EncodeChar

/-- `b.is_ascii_alphanumeric() || b == b'_'`. -/
def isSafe (b : UInt8) : Bool :=
  (48 ≤ b && b ≤ 57) || (65 ≤ b && b ≤ 90) || (97 ≤ b && b ≤ 122) || b == 95

/-- A hexadecimal digit, in lower case. -/
def hexDigit (n : UInt8) : UInt8 := if n < 10 then 48 + n else 87 + n

/-- The value of a hexadecimal digit in lower case. -/
def unhexDigit (b : UInt8) : Option UInt8 :=
  if 48 ≤ b ∧ b ≤ 57 then some (b - 48)
  else if 97 ≤ b ∧ b ≤ 102 then some (b - 87)
  else none

/-- `{:02x}`. -/
def hex (b : UInt8) : UInt8 × UInt8 := (hexDigit (b / 16), hexDigit (b % 16))

/-- The byte that the two digits stand for, if it is one that is escaped. -/
def unhex (x y : UInt8) : Option UInt8 :=
  match unhexDigit x, unhexDigit y with
  | some h, some l => if isSafe (16 * h + l) then none else some (16 * h + l)
  | _, _ => none

/-- systemd's `bus_path_escape` algorithm. -/
def encodePathComponent (s : Str) : Str :=
  (utf8 s).flatMap fun b =>
    if isSafe b then [Char.ofUInt8 b]
    else ['_', Char.ofUInt8 (hex b).1, Char.ofUInt8 (hex b).2]

/-- Object-path prefix for per-unit objects. -/
def unitPathPrefix : Str := "/org/freedesktop/systemd1/unit/".toList

/-- The object path of a unit. `tryFrom` makes a path of a text, if it is a valid one. -/
def unitObjectPath (tryFrom : Str → Option Str) (name : UnitName) : Except String Str :=
  match tryFrom (unitPathPrefix ++ encodePathComponent name.filename) with
  | some p => .ok p
  | none => .error "escaped unit path must be a valid object path"

/-! ## The escape as an escape of bytes -/

/-- What holds of every number below 256 holds of every byte. -/
theorem forall_byte {P : UInt8 → Prop} (h : ∀ n < 256, P (UInt8.ofNat n)) : ∀ b, P b := by
  intro b
  have hb := h b.toNat b.toNat_lt
  rwa [UInt8.ofNat_toNat] at hb

theorem hexDigit_spec : ∀ b : UInt8, (isSafe (hexDigit (b / 16)) = true ∧ hexDigit (b / 16) ≠ 95) ∧
    (isSafe (hexDigit (b % 16)) = true ∧ hexDigit (b % 16) ≠ 95) ∧
    unhexDigit (hexDigit (b / 16)) = some (b / 16) ∧ unhexDigit (hexDigit (b % 16)) = some (b % 16) ∧
    16 * (b / 16) + b % 16 = b :=
  forall_byte (by decide +kernel)

theorem unhexDigit_spec : ∀ x h : UInt8, unhexDigit x = some h → x = hexDigit h ∧ h < 16 := by
  have hall : ∀ x : UInt8, ∀ h ∈ unhexDigit x, x = hexDigit h ∧ h < 16 :=
    forall_byte (by decide +kernel)
  exact fun x h hx => hall x h hx

/-- The escape of bytes. -/
def escaping : Escaping UInt8 where
  safe := isSafe
  esc := 95
  code := hex
  decode := unhex
  safe_esc := rfl
  decode_code := by
    intro b hb
    obtain ⟨-, -, hhi, hlo, hsum⟩ := hexDigit_spec b
    simp only [unhex, hex, hhi, hlo, hsum, hb, Bool.false_eq_true, if_false]
  of_decode := by
    intro x y b h
    unfold unhex at h
    split at h
    next hi lo hx hy =>
      obtain ⟨rfl, hhi⟩ := unhexDigit_spec _ _ hx
      obtain ⟨rfl, hlo⟩ := unhexDigit_spec _ _ hy
      split at h
      next => exact absurd h (by simp)
      next hb =>
        obtain rfl := Option.some.inj h
        refine ⟨by simpa using hb, ?_⟩
        have hdiv : (16 * hi + lo) / 16 = hi ∧ (16 * hi + lo) % 16 = lo := by
          have hi' : hi.toNat < 16 := UInt8.lt_iff_toNat_lt.mp hhi
          have lo' : lo.toNat < 16 := UInt8.lt_iff_toNat_lt.mp hlo
          have hsum : (16 * hi + lo).toNat = 16 * hi.toNat + lo.toNat := by
            rw [UInt8.toNat_add, UInt8.toNat_mul]
            show ((16 * hi.toNat) % 256 + lo.toNat) % 256 = _
            omega
          refine ⟨UInt8.toNat_inj.mp ?_, UInt8.toNat_inj.mp ?_⟩
          · rw [UInt8.toNat_div, hsum]
            show (16 * hi.toNat + lo.toNat) / 16 = _
            omega
          · rw [UInt8.toNat_mod, hsum]
            show (16 * hi.toNat + lo.toNat) % 16 = _
            omega
        rw [hex, hdiv.1, hdiv.2]
    next => exact absurd h (by simp)
  plain_fst := fun b => (hexDigit_spec b).1
  plain_snd := fun b => (hexDigit_spec b).2.1

/-- A byte as a character. -/
theorem ofUInt8_inj {a b : UInt8} (h : Char.ofUInt8 a = Char.ofUInt8 b) : a = b := by
  have hval : a.toUInt32 = b.toUInt32 := congrArg Char.val h
  have hnat := congrArg UInt32.toNat hval
  rw [UInt8.toNat_toUInt32, UInt8.toNat_toUInt32] at hnat
  exact UInt8.toNat_inj.mp hnat

theorem encodePathComponent_eq (s : Str) :
    encodePathComponent s = (escaping.encode (utf8 s)).map Char.ofUInt8 := by
  unfold encodePathComponent Escaping.encode
  rw [List.map_flatMap]
  congr 1
  funext b
  unfold Escaping.one
  show _ = List.map Char.ofUInt8 (if isSafe b = true then [b] else [95, (hex b).1, (hex b).2])
  split <;> rfl

theorem encodePathComponent_eq_iff {s t : Str} :
    encodePathComponent s = encodePathComponent t ↔
      escaping.unescape (utf8 s) = escaping.unescape (utf8 t) := by
  rw [encodePathComponent_eq, encodePathComponent_eq, ← escaping.encode_eq_iff]
  exact ⟨fun h => List.map_inj_right (fun _ _ => ofUInt8_inj) |>.mp h, fun h => by rw [h]⟩

/-! ## Validity -/

theorem isElementChar_ofUInt8 : ∀ b : UInt8, isSafe b = true →
    isElementChar (Char.ofUInt8 b) = true :=
  forall_byte (by decide +kernel)

theorem isElementChar_encode {s : Str} {c : Char} (h : c ∈ encodePathComponent s) :
    isElementChar c = true := by
  unfold encodePathComponent at h
  obtain ⟨b, -, hc⟩ := List.mem_flatMap.mp h
  split at hc
  next hb =>
    obtain rfl := List.mem_singleton.mp hc
    exact isElementChar_ofUInt8 b hb
  next =>
    have hspec := hexDigit_spec b
    simp only [List.mem_cons, List.not_mem_nil, or_false] at hc
    obtain rfl | rfl | rfl := hc
    · rfl
    · exact isElementChar_ofUInt8 _ hspec.1.1
    · exact isElementChar_ofUInt8 _ hspec.2.1.1

theorem encodePathComponent_ne_nil {s : Str} (h : s ≠ []) : encodePathComponent s ≠ [] := by
  cases s with
  | nil => exact absurd rfl h
  | cons c s =>
    have hbytes : utf8 (c :: s) ≠ [] := by
      unfold utf8
      rw [List.flatMap_cons]
      exact fun he => String.utf8EncodeChar_ne_nil (List.append_eq_nil_iff.mp he).1
    obtain ⟨b, l, hb⟩ := List.exists_cons_of_ne_nil hbytes
    unfold encodePathComponent
    rw [hb, List.flatMap_cons]
    split <;> simp

theorem unitPathPrefix_eq :
    unitPathPrefix = '/' :: ("org/freedesktop/systemd1/unit".toList ++ ['/']) := by
  decide +kernel

theorem unitPathPrefix_elements : ∀ e ∈ splitOn '/' "org/freedesktop/systemd1/unit".toList,
    e ≠ [] ∧ ∀ c ∈ e, isElementChar c = true := by
  have hall : (splitOn '/' "org/freedesktop/systemd1/unit".toList).all
      (fun e => !e.isEmpty && e.all isElementChar) = true := by decide +kernel
  intro e he
  have hboth := Bool.and_eq_true_iff.mp (List.all_eq_true.mp hall e he)
  exact ⟨by simpa using hboth.1, List.all_eq_true.mp hboth.2⟩

/-- **The path of every unit is valid.** -/
theorem validObjectPath_unit {s : Str} (h : s ≠ []) :
    ValidObjectPath (unitPathPrefix ++ encodePathComponent s) := by
  have hslash : '/' ∉ encodePathComponent s := fun hm =>
    absurd (isElementChar_encode hm) (by decide)
  rw [unitPathPrefix_eq, List.cons_append, List.append_assoc, List.singleton_append]
  refine Or.inr ?_
  intro e he
  rw [splitOn_append_sep, splitOn_of_not_mem hslash] at he
  cases List.mem_append.mp he with
  | inl he => exact unitPathPrefix_elements e he
  | inr he =>
    rw [List.mem_singleton.mp he]
    exact ⟨encodePathComponent_ne_nil h, fun c hc => isElementChar_encode hc⟩

/-! ## Paths and names -/

variable {tryFrom : Str → Option Str}

theorem filename_ne_nil (n : UnitName) : n.filename ≠ [] := by
  have hlen := n.kind.suffix_spec.2.1
  intro h
  have hzero := congrArg List.length h
  unfold UnitName.filename at hzero
  split at hzero
  · simp only [List.length_append, List.length_nil] at hzero
    omega
  · simp only [List.length_append, List.length_cons, List.length_nil] at hzero
    omega

/-- `expect` does not fail. -/
theorem unitObjectPath_ok (htry : ∀ p, ValidObjectPath p → tryFrom p = some p) (n : UnitName) :
    unitObjectPath tryFrom n = .ok (unitPathPrefix ++ encodePathComponent n.filename) := by
  unfold unitObjectPath
  rw [htry _ (validObjectPath_unit (filename_ne_nil n))]

/-- Two units with paths that are valid, and differ if the units do. -/
def Identified (tryFrom : Str → Option Str) (n m : UnitName) : Prop :=
  ∃ p q, unitObjectPath tryFrom n = .ok p ∧ unitObjectPath tryFrom m = .ok q ∧
    ValidObjectPath p ∧ ValidObjectPath q ∧ (n ≠ m → p ≠ q)

theorem identified_iff_path (htry : ∀ p, ValidObjectPath p → tryFrom p = some p) (n m : UnitName) :
    Identified tryFrom n m ↔
      (n ≠ m → encodePathComponent n.filename ≠ encodePathComponent m.filename) := by
  have hpath : unitPathPrefix ++ encodePathComponent n.filename ≠
      unitPathPrefix ++ encodePathComponent m.filename ↔
      encodePathComponent n.filename ≠ encodePathComponent m.filename := by
    rw [ne_eq, List.append_cancel_left_eq]
  constructor
  · intro h hne
    obtain ⟨p, q, hp, hq, -, -, hpq⟩ := h
    rw [unitObjectPath_ok htry] at hp hq
    obtain rfl := Except.ok.inj hp
    obtain rfl := Except.ok.inj hq
    exact hpath.mp (hpq hne)
  · intro h
    exact ⟨_, _, unitObjectPath_ok htry n, unitObjectPath_ok htry m,
      validObjectPath_unit (filename_ne_nil n), validObjectPath_unit (filename_ne_nil m),
      fun hne => hpath.mpr (h hne)⟩

/-- Units differ exactly if their texts do. -/
theorem ne_iff_of_fromStr {s t : Str} {n m : UnitName} (hs : fromStr s = .ok n)
    (ht : fromStr t = .ok m) : n ≠ m ↔ s ≠ t := by
  refine not_congr ⟨fun h => ?_, fun h => ?_⟩
  · rw [← filename_of_fromStr hs, ← filename_of_fromStr ht, h]
  · subst h
    exact Except.ok.inj (hs.symm.trans ht)

/-- **Object paths identify two units** exactly if their names, where they differ, still do
once each escape sequence that they spell is read as the byte it stands for. -/
theorem identified_iff (htry : ∀ p, ValidObjectPath p → tryFrom p = some p) {s t : Str}
    {n m : UnitName} (hs : fromStr s = .ok n) (ht : fromStr t = .ok m) :
    Identified tryFrom n m ↔
      (s ≠ t → escaping.unescape (utf8 s) ≠ escaping.unescape (utf8 t)) := by
  have hpaths : encodePathComponent s = encodePathComponent t ↔
      escaping.unescape (utf8 s) = escaping.unescape (utf8 t) := encodePathComponent_eq_iff
  rw [identified_iff_path htry, ne_iff_of_fromStr hs ht, filename_of_fromStr hs,
    filename_of_fromStr ht, ne_eq (encodePathComponent s), hpaths]

/-- Accepts the valid paths. -/
def ofValid (p : Str) : Option Str := if ValidObjectPath p then some p else none

theorem ofValid_of_valid {p : Str} (h : ValidObjectPath p) : ofValid p = some p := if_pos h

theorem identified_iff_ofValid :
    Identified ofValid ⟨"foo".toList, none, .service⟩ ⟨"foo".toList, some "bar".toList, .service⟩ ↔
      ("foo.service".toList ≠ "foo@bar.service".toList →
        escaping.unescape (utf8 "foo.service".toList) ≠
          escaping.unescape (utf8 "foo@bar.service".toList)) :=
  identified_iff (fun _ => ofValid_of_valid) (by rfl) (by rfl)

/-- `a.b.service` and `a_2eb.service` have one path. -/
theorem not_all_identified : ¬ ∀ (s t : Str) (n m : UnitName), fromStr s = .ok n →
    fromStr t = .ok m → Identified ofValid n m := by
  intro h
  obtain ⟨p, q, hp, hq, -, -, hne⟩ := h "a.b.service".toList "a_2eb.service".toList
    ⟨"a.b".toList, none, .service⟩ ⟨"a_2eb".toList, none, .service⟩ (by rfl) (by rfl)
  rw [unitObjectPath_ok fun _ => ofValid_of_valid] at hp hq
  refine hne (by decide) ?_
  have henc : encodePathComponent "a.b.service".toList =
      encodePathComponent "a_2eb.service".toList := by decide +kernel
  rw [← Except.ok.inj hp, ← Except.ok.inj hq]
  exact congrArg _ henc

end Systeml.Bus
