import Systeml.Lib.Text

/-!
# Flat JSON objects

The text of an object whose values are strings or `null`, as a serializer writes it on one
line, and a reader of such objects. The reader gives back what was written
(`readObject_writeObject`), and the text has no control characters in it, so a file of objects
can be cut into lines first (`control_notMem_writeObject`).
-/

namespace Systeml.Lib.Json

/-! ## Strings -/

/-- A hexadecimal digit. -/
def hexDigitOf (n : Nat) : Char := Char.ofNat (if n < 10 then 48 + n else 87 + n)

/-- Its value. -/
def hexDigitVal (c : Char) : Option Nat :=
  if 48 ≤ c.toNat ∧ c.toNat ≤ 57 then some (c.toNat - 48)
  else if 97 ≤ c.toNat ∧ c.toNat ≤ 102 then some (c.toNat - 87)
  else if 65 ≤ c.toNat ∧ c.toNat ≤ 70 then some (c.toNat - 55)
  else none

/-- The letter behind the backslash, for the characters that have one. -/
def shortEscape (c : Char) : Option Char :=
  if c = '"' then some '"'
  else if c = '\\' then some '\\'
  else if c.toNat = 8 then some 'b'
  else if c.toNat = 9 then some 't'
  else if c.toNat = 10 then some 'n'
  else if c.toNat = 12 then some 'f'
  else if c.toNat = 13 then some 'r'
  else none

/-- The character that such a letter stands for. -/
def unescape (c : Char) : Option Char :=
  if c = '"' then some '"'
  else if c = '\\' then some '\\'
  else if c = '/' then some '/'
  else if c = 'b' then some (Char.ofNat 8)
  else if c = 't' then some (Char.ofNat 9)
  else if c = 'n' then some (Char.ofNat 10)
  else if c = 'f' then some (Char.ofNat 12)
  else if c = 'r' then some (Char.ofNat 13)
  else none

/-- A character of a string. Control characters are escaped, others stand for themselves. -/
def writeChar (c : Char) : Str :=
  match shortEscape c with
  | some e => ['\\', e]
  | none =>
    if c.toNat < 32 then
      ['\\', 'u', '0', '0', hexDigitOf (c.toNat / 16), hexDigitOf (c.toNat % 16)]
    else [c]

/-- The text of a string. -/
def writeString (s : Str) : Str := '"' :: (s.flatMap writeChar ++ ['"'])

/-- The rest of a string, behind the opening quote, and what follows it. -/
def readBody : Str → Option (Str × Str)
  | [] => none
  | c :: rest =>
    if c = '"' then some ([], rest)
    else if c = '\\' then
      match rest with
      | [] => none
      | e :: rest =>
        if e = 'u' then
          match rest with
          | h₁ :: h₂ :: h₃ :: h₄ :: rest =>
            match hexDigitVal h₁, hexDigitVal h₂, hexDigitVal h₃, hexDigitVal h₄ with
            | some a, some b, some c, some d =>
              (readBody rest).map fun p =>
                (Char.ofNat (4096 * a + 256 * b + 16 * c + d) :: p.1, p.2)
            | _, _, _, _ => none
          | _ => none
        else
          match unescape e with
          | some x => (readBody rest).map fun p => (x :: p.1, p.2)
          | none => none
    else if c.toNat < 32 then none
    else (readBody rest).map fun p => (c :: p.1, p.2)

theorem hexDigitVal_hexDigitOf : ∀ n < 16, hexDigitVal (hexDigitOf n) = some n := by decide

theorem unescape_shortEscape {c e : Char} (h : shortEscape c = some e) :
    unescape e = some c ∧ e ≠ 'u' ∧ 32 ≤ e.toNat := by
  have hofNat : ∀ n, c.toNat = n → Char.ofNat n = c := by
    rintro n rfl
    exact Char.ofNat_toNat c
  unfold shortEscape at h
  split at h
  next hc =>
    obtain rfl := Option.some.inj h
    exact ⟨congrArg some hc.symm, by decide, by decide⟩
  next =>
  split at h
  next hc =>
    obtain rfl := Option.some.inj h
    exact ⟨congrArg some hc.symm, by decide, by decide⟩
  next =>
  split at h
  next hc =>
    obtain rfl := Option.some.inj h
    exact ⟨congrArg some (hofNat _ hc), by decide, by decide⟩
  next =>
  split at h
  next hc =>
    obtain rfl := Option.some.inj h
    exact ⟨congrArg some (hofNat _ hc), by decide, by decide⟩
  next =>
  split at h
  next hc =>
    obtain rfl := Option.some.inj h
    exact ⟨congrArg some (hofNat _ hc), by decide, by decide⟩
  next =>
  split at h
  next hc =>
    obtain rfl := Option.some.inj h
    exact ⟨congrArg some (hofNat _ hc), by decide, by decide⟩
  next =>
  split at h
  next hc =>
    obtain rfl := Option.some.inj h
    exact ⟨congrArg some (hofNat _ hc), by decide, by decide⟩
  next => exact absurd h (by simp)

/-- A character is read back. -/
theorem readBody_writeChar (c : Char) (rest : Str) :
    readBody (writeChar c ++ rest) = (readBody rest).map fun p => (c :: p.1, p.2) := by
  unfold writeChar
  split
  next e he =>
    obtain ⟨hback, hu, -⟩ := unescape_shortEscape he
    show readBody ('\\' :: e :: rest) = _
    rw [readBody.eq_def]
    simp only [if_neg hu, hback, reduceIte, Char.reduceEq]
  next hnone =>
    have hplain : c ≠ '"' ∧ c ≠ '\\' := by
      constructor
      · rintro rfl
        exact absurd hnone (by decide)
      · rintro rfl
        exact absurd hnone (by decide)
    split
    next hlow =>
      have hhi := hexDigitVal_hexDigitOf (c.toNat / 16) (by omega)
      have hlo := hexDigitVal_hexDigitOf (c.toNat % 16) (Nat.mod_lt _ (by decide))
      have hzero : hexDigitVal '0' = some 0 := by decide
      have hsum : 4096 * 0 + 256 * 0 + 16 * (c.toNat / 16) + c.toNat % 16 = c.toNat := by omega
      show readBody ('\\' :: 'u' :: '0' :: '0' :: _ :: _ :: rest) = _
      rw [readBody.eq_def]
      simp only [reduceIte, Char.reduceEq, hzero, hhi, hlo, hsum, Char.ofNat_toNat]
    next hhigh =>
      show readBody (c :: rest) = _
      rw [readBody.eq_def]
      simp only [if_neg hplain.1, if_neg hplain.2, if_neg hhigh]

theorem readBody_writeString (s rest : Str) :
    readBody (s.flatMap writeChar ++ '"' :: rest) = some (s, rest) := by
  induction s with
  | nil =>
    rw [List.flatMap_nil, List.nil_append, readBody.eq_def]
    simp only [reduceIte]
  | cons c s ih =>
    rw [List.flatMap_cons, List.append_assoc, readBody_writeChar, ih]
    rfl

/-- No character of the text is a control character. -/
theorem control_notMem_writeString {x : Char} (hx : x.toNat < 32) (s : Str) :
    x ∉ writeString s := by
  have hne : ∀ {c : Char}, 32 ≤ c.toNat → x ≠ c := by
    rintro c hc rfl
    omega
  have hchar : ∀ c, x ∉ writeChar c := by
    intro c hc
    unfold writeChar at hc
    split at hc
    next e he =>
      simp only [List.mem_cons, List.not_mem_nil, or_false] at hc
      obtain rfl | rfl := hc
      · exact absurd hx (by decide)
      · exact hne (unescape_shortEscape he).2.2 rfl
    next hnone =>
      split at hc
      next hlow =>
        have hhex : ∀ n < 16, 32 ≤ (hexDigitOf n).toNat := by decide
        simp only [List.mem_cons, List.not_mem_nil, or_false] at hc
        obtain hc | hc | hc | hc | hc | hc := hc
        · exact hne (by decide) hc
        · exact hne (by decide) hc
        · exact hne (by decide) hc
        · exact hne (by decide) hc
        · exact hne (hhex _ (by omega)) hc
        · exact hne (hhex _ (Nat.mod_lt _ (by decide))) hc
      next hhigh =>
        obtain rfl := List.mem_singleton.mp hc
        exact hhigh hx
  intro h
  simp only [writeString, List.mem_cons, List.mem_append, List.mem_flatMap, List.not_mem_nil,
    or_false] at h
  obtain h | ⟨c, -, hc⟩ | h := h
  · exact hne (by decide) h
  · exact hchar c hc
  · exact hne (by decide) h

/-! ## Objects -/

/-- The members of an object, in their order. -/
abbrev Members := List (Str × Option Str)

/-- A value: a string, or `null`. -/
def writeValue : Option Str → Str
  | some s => writeString s
  | none => "null".toList

/-- A value at the beginning of a text, and what follows it. -/
def readValue (text : Str) : Option (Option Str × Str) :=
  match text with
  | '"' :: rest => (readBody rest).map fun p => (some p.1, p.2)
  | 'n' :: 'u' :: 'l' :: 'l' :: rest => some (none, rest)
  | _ => none

theorem readValue_writeValue (v : Option Str) (rest : Str) :
    readValue (writeValue v ++ rest) = some (v, rest) := by
  cases v with
  | none => rfl
  | some s =>
    show readValue ('"' :: (s.flatMap writeChar ++ ['"'] ++ rest)) = _
    rw [List.append_assoc, List.singleton_append, readValue, readBody_writeString]
    rfl

/-- One member. -/
def writeMember (m : Str × Option Str) : Str := writeString m.1 ++ ':' :: writeValue m.2

/-- A member at the beginning of a text, and what follows it. -/
def readMember (text : Str) : Option ((Str × Option Str) × Str) :=
  match text with
  | '"' :: rest =>
    match readBody rest with
    | some (key, ':' :: rest) => (readValue rest).map fun p => ((key, p.1), p.2)
    | _ => none
  | _ => none

theorem readMember_writeMember (m : Str × Option Str) (rest : Str) :
    readMember (writeMember m ++ rest) = some (m, rest) := by
  have hsplit : writeMember m ++ rest =
      '"' :: (m.1.flatMap writeChar ++ '"' :: (':' :: (writeValue m.2 ++ rest))) := by
    simp [writeMember, writeString]
  rw [hsplit, readMember, readBody_writeString]
  simp only [readValue_writeValue, Option.map_some]

/-- The members, with commas between them, and the closing brace. -/
def writeMembers : Members → Str
  | [] => ['\x7d']
  | [m] => writeMember m ++ ['\x7d']
  | m :: ms => writeMember m ++ ',' :: writeMembers ms

/-- Up to `n` members and the closing brace, which is to end the text. -/
def readMembers : Nat → Str → Option Members
  | 0, _ => none
  | n + 1, text =>
    match readMember text with
    | some (m, ',' :: rest) => (readMembers n rest).map (m :: ·)
    | some (m, ['\x7d']) => some [m]
    | _ => none

theorem readMembers_writeMembers : ∀ {ms : Members} {n : Nat}, ms ≠ [] → ms.length ≤ n →
    readMembers n (writeMembers ms) = some ms
  | [], _, h, _ => absurd rfl h
  | [m], 0, _, h => absurd h (by simp)
  | [m], n + 1, _, _ => by
    rw [writeMembers, readMembers, readMember_writeMember]
    rfl
  | m :: m' :: ms, 0, _, h => absurd h (by simp)
  | m :: m' :: ms, n + 1, _, h => by
    rw [writeMembers, readMembers, readMember_writeMember]
    · simp only [readMembers_writeMembers (List.cons_ne_nil m' ms) (Nat.le_of_succ_le_succ h),
        Option.map_some]
    · simp

/-- The text of an object. -/
def writeObject (ms : Members) : Str := '\x7b' :: writeMembers ms

/-- An object that is all of a text. -/
def readObject : Str → Option Members
  | ['\x7b', '\x7d'] => some []
  | '\x7b' :: rest => readMembers rest.length rest
  | _ => none

theorem length_le_writeMembers : ∀ ms : Members, ms.length ≤ (writeMembers ms).length
  | [] => Nat.zero_le _
  | [m] => by simp [writeMembers]
  | m :: m' :: ms => by
    have ih := length_le_writeMembers (m' :: ms)
    show _ ≤ (writeMember m ++ ',' :: writeMembers (m' :: ms)).length
    simp only [List.length_append, List.length_cons] at ih ⊢
    omega

/-- **What was written is read back.** -/
theorem readObject_writeObject (ms : Members) : readObject (writeObject ms) = some ms := by
  cases ms with
  | nil => rfl
  | cons m ms =>
    have hread := readMembers_writeMembers (List.cons_ne_nil m ms)
      (length_le_writeMembers (m :: ms))
    -- the members begin with a quote
    obtain ⟨rest, hrest⟩ : ∃ rest, writeMembers (m :: ms) = '"' :: rest := by
      cases ms with
      | nil => exact ⟨_, rfl⟩
      | cons m' ms => exact ⟨_, rfl⟩
    rw [hrest] at hread
    unfold writeObject
    rw [hrest, readObject]
    · exact hread
    · simp

/-- **An object has no control characters in it**, so it stands on one line. -/
theorem control_notMem_writeObject {x : Char} (hx : x.toNat < 32) (ms : Members) :
    x ∉ writeObject ms := by
  have hne : ∀ {c : Char}, 32 ≤ c.toNat → x ≠ c := by
    rintro c hc rfl
    omega
  have hvalue : ∀ v, x ∉ writeValue v := by
    intro v
    cases v with
    | none =>
      intro h
      have hall : "null".toList.all (fun c => 32 ≤ c.toNat) = true := rfl
      exact hne (of_decide_eq_true (List.all_eq_true.mp hall x h)) rfl
    | some s => exact control_notMem_writeString hx s
  have hmember : ∀ m : Str × Option Str, x ∉ writeMember m := by
    intro m h
    obtain h | h := List.mem_append.mp h
    · exact control_notMem_writeString hx m.1 h
    · obtain h | h := List.mem_cons.mp h
      · exact hne (by decide) h
      · exact hvalue m.2 h
  have hmembers : ∀ ms : Members, x ∉ writeMembers ms := by
    intro ms
    induction ms with
    | nil => exact fun h => hne (by decide) (List.mem_singleton.mp h)
    | cons m ms ih =>
      intro h
      cases ms with
      | nil =>
        obtain h | h := List.mem_append.mp h
        · exact hmember m h
        · exact hne (by decide) (List.mem_singleton.mp h)
      | cons m' ms =>
        obtain h | h := List.mem_append.mp h
        · exact hmember m h
        · obtain h | h := List.mem_cons.mp h
          · exact hne (by decide) h
          · exact ih h
  intro h
  obtain h | h := List.mem_cons.mp h
  · exact hne (by decide) h
  · exact hmembers ms h

end Systeml.Lib.Json
