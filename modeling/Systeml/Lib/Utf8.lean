import Systeml.Lib.Text

/-!
# ASCII in UTF-8

The bytes of a text that are below 128 are its ASCII characters, so bytes can be cut at
such a character before they are decoded (`fromUtf8_line`).
-/

namespace Systeml.Lib

/-- The bytes of a text, decoded. -/
theorem fromUtf8_eq_some {bytes : List UInt8} {t : Str} :
    fromUtf8 bytes = some t ↔ bytes = t.flatMap String.utf8EncodeChar := by
  have hbytes : ∀ l : List UInt8, l.toByteArray = ⟨l.toArray⟩ := by
    intro l
    apply ByteArray.ext
    simp
  unfold fromUtf8
  constructor
  · intro h
    obtain ⟨s, hs, rfl⟩ := Option.map_eq_some_iff.mp h
    unfold String.fromUTF8? at hs
    split at hs
    next hv =>
      have henc : (String.ofList s.toList).toByteArray = ⟨bytes.toArray⟩ := by
        rw [String.ofList_toList, ← Option.some.inj hs]
        rfl
      rw [String.toByteArray_ofList] at henc
      have hflat : (s.toList.flatMap String.utf8EncodeChar).toByteArray = bytes.toByteArray :=
        henc.trans (hbytes bytes).symm
      rw [hbytes, hbytes] at hflat
      simpa using hflat.symm
    next => exact absurd hs (by simp)
  · rintro rfl
    have hvalid : ByteArray.IsValidUTF8 ⟨(t.flatMap String.utf8EncodeChar).toArray⟩ :=
      ⟨t, (hbytes _).symm⟩
    unfold String.fromUTF8?
    rw [dif_pos hvalid, Option.map_some]
    refine congrArg some ?_
    have hstr : String.fromUTF8 ⟨(t.flatMap String.utf8EncodeChar).toArray⟩ hvalid =
        String.ofList t := by
      rw [← String.toByteArray_inj, String.toByteArray_ofList]
      exact (hbytes _).symm
    rw [hstr, String.toList_ofList]

/-- The bits that mark the bytes of longer characters make them large. -/
theorem le_or_mark {m : UInt8} (hm : 128 ≤ m) (x : UInt8) : 128 ≤ x ||| m := by
  have hor : m.toNat ≤ (x ||| m).toNat := by
    rw [UInt8.toNat_or]
    exact Nat.right_le_or
  exact UInt8.le_iff_toNat_le.mpr (Nat.le_trans (UInt8.le_iff_toNat_le.mp hm) hor)

/-- A byte below 128 is a character of its own. -/
theorem mem_utf8EncodeChar_ascii {c : Char} {b : UInt8} (h : b ∈ String.utf8EncodeChar c)
    (hb : b < 128) : String.utf8EncodeChar c = [b] ∧ c = Char.ofUInt8 b := by
  have hnot : ∀ {m : UInt8}, 128 ≤ m → ∀ x, b ≠ x ||| m := by
    rintro m hm x rfl
    exact absurd hb (UInt8.not_lt.mpr (le_or_mark hm x))
  obtain hs | hs | hs | hs := c.utf8Size_eq
  · rw [String.utf8EncodeChar_eq_singleton hs] at h ⊢
    obtain rfl := List.mem_singleton.mp h
    have hval : c.val.toNat ≤ 127 := UInt32.le_iff_toNat_le.mp (Char.utf8Size_eq_one_iff.mp hs)
    refine ⟨rfl, Char.ext (UInt32.toNat_inj.mp ?_)⟩
    show c.val.toNat = c.val.toUInt8.toUInt32.toNat
    rw [UInt8.toNat_toUInt32, UInt32.toNat_toUInt8]
    omega
  · rw [String.utf8EncodeChar_eq_cons_cons hs] at h
    simp only [List.mem_cons, List.not_mem_nil, or_false] at h
    exact absurd h (not_or.mpr ⟨hnot (by decide) _, hnot (by decide) _⟩)
  · rw [String.utf8EncodeChar_eq_cons_cons_cons hs] at h
    simp only [List.mem_cons, List.not_mem_nil, or_false] at h
    exact absurd h (not_or.mpr ⟨hnot (by decide) _, not_or.mpr ⟨hnot (by decide) _,
      hnot (by decide) _⟩⟩)
  · rw [String.utf8EncodeChar_eq_cons_cons_cons_cons hs] at h
    simp only [List.mem_cons, List.not_mem_nil, or_false] at h
    exact absurd h (not_or.mpr ⟨hnot (by decide) _, not_or.mpr ⟨hnot (by decide) _,
      not_or.mpr ⟨hnot (by decide) _, hnot (by decide) _⟩⟩⟩)

theorem utf8EncodeChar_ofUInt8 {b : UInt8} (hb : b < 128) :
    String.utf8EncodeChar (Char.ofUInt8 b) = [b] := by
  have hsize : (Char.ofUInt8 b).utf8Size = 1 := by
    rw [Char.utf8Size_eq_one_iff, UInt32.le_iff_toNat_le]
    have hlt := UInt8.lt_iff_toNat_lt.mp hb
    show b.toUInt32.toNat ≤ 127
    rw [UInt8.toNat_toUInt32]
    exact Nat.le_of_lt_succ hlt
  rw [String.utf8EncodeChar_eq_singleton hsize]
  show [b.toUInt32.toUInt8] = [b]
  simp

/-- A text has the ASCII characters that its bytes have. -/
theorem mem_of_fromUtf8 {bytes : List UInt8} {t : Str} {b : UInt8} (h : fromUtf8 bytes = some t)
    (hb : b < 128) : b ∈ bytes ↔ Char.ofUInt8 b ∈ t := by
  obtain rfl := fromUtf8_eq_some.mp h
  rw [List.mem_flatMap]
  constructor
  · rintro ⟨c, hc, hbc⟩
    obtain ⟨-, rfl⟩ := mem_utf8EncodeChar_ascii hbc hb
    exact hc
  · intro hc
    exact ⟨_, hc, utf8EncodeChar_ofUInt8 hb ▸ List.mem_singleton_self b⟩

/-- Bytes up to an ASCII byte are a text up to its character. -/
theorem fromUtf8_upTo {bytes : List UInt8} {t : Str} {b : UInt8} (hb : b < 128)
    (hfirst : b ∉ bytes) (h : fromUtf8 (bytes ++ [b]) = some t) :
    ∃ a, t = a ++ [Char.ofUInt8 b] ∧ Char.ofUInt8 b ∉ a := by
  have hin : Char.ofUInt8 b ∈ t := (mem_of_fromUtf8 h hb).mp (by simp)
  obtain ⟨a, r, rfl, ha⟩ := List.eq_append_cons_of_mem hin
  have hbytes := fromUtf8_eq_some.mp h
  rw [List.flatMap_append, List.flatMap_cons, utf8EncodeChar_ofUInt8 hb] at hbytes
  -- behind it there is nothing, or it would stand among the bytes before the last one
  have hr : r.flatMap String.utf8EncodeChar = [] := by
    rcases List.eq_nil_or_concat (r.flatMap String.utf8EncodeChar) with hr | ⟨m, x, hm⟩
    · exact hr
    · rw [hm, List.concat_eq_append, List.singleton_append, ← List.cons_append,
        ← List.append_assoc] at hbytes
      have hall := (List.append_inj' hbytes rfl).1
      exact absurd (hall ▸ List.mem_append_right _ List.mem_cons_self) hfirst
  cases r with
  | nil => exact ⟨a, rfl, ha⟩
  | cons c r =>
    rw [List.flatMap_cons] at hr
    exact absurd (List.append_eq_nil_iff.mp hr).1 String.utf8EncodeChar_ne_nil

end Systeml.Lib
