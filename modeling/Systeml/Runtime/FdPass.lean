import Systeml.Lib.Descriptors
import Mathlib.Data.List.Basic

/-!
# The descriptors a child gets

`install` copies the listeners of a socket onto the descriptors from 3 on, one after the
other, in the child. Descriptor `3 + j` ends with the file that its source held when it
was copied: if the source is one of the descriptors copied onto before, that is what was
copied there (`preExec_spec`). So all files arrive in their order exactly when no source
has been overwritten by then with another file (`install_delivers_iff`).
-/

namespace Systeml.Runtime

open Systeml.Lib

variable {F : Type}

/-- `SD_LISTEN_FDS_START`, the first descriptor that is passed. -/
abbrev firstFd : Nat := 3

/-- One round of the `pre_exec` loop: copy `src` onto `3 + i` and clear the flag there. -/
def passFd (t : Descriptors F) (i src : Nat) : Option (Descriptors F) :=
  (t.dup2 src (firstFd + i)).map (·.keepOnExec (firstFd + i))

/-- The loop, from position `i` on. It fails where a source is not open. -/
def passFrom : Nat → List Nat → Descriptors F → Option (Descriptors F)
  | _, [], t => some t
  | i, src :: rest, t => (passFd t i src).bind (passFrom (i + 1) rest)

/-- The `pre_exec` loop of `install` over the listeners' descriptors. -/
def preExec (rawFds : List Nat) (t : Descriptors F) : Option (Descriptors F) :=
  passFrom 0 rawFds t

/-- The same open file, with the flag cleared. -/
def kept (d : Descriptor F) : Descriptor F := ⟨d.file, false⟩

/-- **What the loop leaves.** A source below the ones written so far, or above, is
copied as it was; one among them as it was written. Nothing else changes. -/
theorem preExec_spec : ∀ (srcs : List Nat) (k : Nat) (t : Descriptors F),
    (∀ s ∈ srcs, ∃ d, t s = some d) → ∃ t', passFrom k srcs t = some t' ∧
      (∀ j s, srcs[j]? = some s → t' (firstFd + k + j) =
        if firstFd + k ≤ s ∧ s < firstFd + k + j then t' s else (t s).map kept) ∧
      ∀ fd, fd < firstFd + k ∨ firstFd + k + srcs.length ≤ fd → t' fd = t fd
  | [], k, t, _ => ⟨t, rfl, by simp, fun _ _ => rfl⟩
  | src :: rest, k, t, hopen => by
    obtain ⟨d, hd⟩ := hopen src (List.mem_cons_self ..)
    have hpass : passFd t k src = some (Function.update t (firstFd + k) (some (kept d))) :=
      Descriptors.dup2_keepOnExec hd (firstFd + k)
    have hopen' : ∀ s ∈ rest, ∃ d', Function.update t (firstFd + k) (some (kept d)) s = some d' := by
      intro s hs
      by_cases he : s = firstFd + k
      · exact ⟨kept d, by rw [he, Function.update_self]⟩
      · rw [Function.update_of_ne he]
        exact hopen s (List.mem_cons_of_mem src hs)
    obtain ⟨t', hrun, hplaced, hrest⟩ := preExec_spec rest (k + 1) _ hopen'
    have hfirst : t' (firstFd + k) = some (kept d) := by
      rw [hrest (firstFd + k) (Or.inl (by omega)), Function.update_self]
    refine ⟨t', by rw [passFrom, hpass]; exact hrun, ?_, ?_⟩
    · intro j s hs
      cases j with
      | zero =>
        obtain rfl : src = s := by simpa using hs
        rw [if_neg (by omega), hd]
        exact hfirst
      | succ j =>
        have hj := hplaced j s (by simpa using hs)
        rw [show firstFd + (k + 1) + j = firstFd + k + (j + 1) by omega] at hj
        rw [hj]
        by_cases he : s = firstFd + k
        · -- the source is the descriptor just written
          rw [if_neg (by omega), if_pos (by omega), he, Function.update_self, hfirst]
          rfl
        · rw [Function.update_of_ne he]
          by_cases hin : firstFd + k ≤ s ∧ s < firstFd + k + (j + 1)
          · rw [if_pos hin, if_pos (by omega)]
          · rw [if_neg hin, if_neg (by omega)]
    · intro fd hfd
      rw [List.length_cons] at hfd
      rw [hrest fd (by omega), Function.update_of_ne (by omega)]

/-- Descriptor `3 + i` refers to the file of the `i`-th source, and survives `exec`. -/
def Delivered (srcs : List Nat) (t t' : Descriptors F) : Prop :=
  ∀ i s d, srcs[i]? = some s → t s = some d → t' (firstFd + i) = some (kept d)

/-- No source is a descriptor that was overwritten with another file before. -/
def Untouched (srcs : List Nat) (t : Descriptors F) : Prop :=
  ∀ i j si sj di dj, i < j → srcs[i]? = some si → srcs[j]? = some sj → sj = firstFd + i →
    t si = some di → t sj = some dj → dj.file = di.file

/-- **Socket descriptors arrive in order** exactly when no source has been overwritten
by the time it is copied. -/
theorem install_delivers_iff (srcs : List Nat) (t : Descriptors F)
    (hopen : ∀ s ∈ srcs, ∃ d, t s = some d) :
    (∃ t', preExec srcs t = some t' ∧ Delivered srcs t t') ↔ Untouched srcs t := by
  obtain ⟨t', hrun, hplaced, -⟩ := preExec_spec srcs 0 t hopen
  have hex : (∃ t'', preExec srcs t = some t'' ∧ Delivered srcs t t'') ↔ Delivered srcs t t' := by
    constructor
    · rintro ⟨t'', hrun', hdel⟩
      obtain rfl := Option.some.inj (hrun.symm.trans hrun')
      exact hdel
    · intro hdel
      exact ⟨t', hrun, hdel⟩
  rw [hex]
  simp only [Nat.add_zero] at hplaced
  constructor
  · intro hdel i j si sj di dj hij hi hj hsj hdi hdj
    have hat := hplaced j sj hj
    rw [if_pos (by omega), hdel j sj dj hj hdj, hsj, hdel i si di hi hdi] at hat
    exact (Descriptor.mk.inj (Option.some.inj hat)).1
  · intro hun j
    -- what was written before `j` is right already
    induction j using Nat.strongRecOn with
    | _ j ih =>
      intro sj dj hj hdj
      rw [hplaced j sj hj]
      by_cases hin : firstFd ≤ sj ∧ sj < firstFd + j
      · obtain ⟨i, rfl⟩ := Nat.exists_eq_add_of_le hin.1
        have hlen := (List.getElem?_eq_some_iff.mp hj).1
        have hib : i < srcs.length := by omega
        have hi : srcs[i]? = some srcs[i] := List.getElem?_eq_getElem hib
        obtain ⟨di, hdi⟩ := hopen srcs[i] (List.getElem_mem hib)
        have hsame := hun i j _ _ di dj (by omega) hi hj rfl hdi hdj
        rw [if_pos hin, ih i (by omega) _ di hi hdi]
        exact congrArg some (by rw [kept, kept, hsame])
      · rw [if_neg hin, hdj]
        rfl

/-- Two listeners that are open as 3 and 4, with their numbers as files. -/
def twoFds : Descriptors Nat := fun fd => if fd = 3 ∨ fd = 4 then some ⟨fd, true⟩ else none

theorem twoFds_open {s : Nat} (h : s = 3 ∨ s = 4) : ∃ d, twoFds s = some d :=
  ⟨⟨s, true⟩, if_pos h⟩

/-- In their order they arrive. -/
theorem install_delivers_iff_two :
    (∃ t', preExec [3, 4] twoFds = some t' ∧ Delivered [3, 4] twoFds t') ↔
      Untouched [3, 4] twoFds :=
  install_delivers_iff [3, 4] twoFds fun s hs => twoFds_open (by simpa using hs)

/-- The other way round the first copy overwrites the second source. -/
theorem not_install_delivers : ¬ ∀ (srcs : List Nat) (t : Descriptors Nat), srcs.Nodup →
    (∀ s ∈ srcs, ∃ d, t s = some d) → ∃ t', preExec srcs t = some t' ∧ Delivered srcs t t' := by
  intro h
  obtain ⟨t', hrun, hdel⟩ := h [4, 3] twoFds (by decide) fun s hs =>
    twoFds_open (by simpa [or_comm] using hs)
  have hsecond := hdel 1 3 ⟨3, true⟩ rfl rfl
  have hwritten : (preExec [4, 3] twoFds).bind (· 4) = some ⟨4, false⟩ := rfl
  rw [hrun] at hwritten
  exact absurd (hwritten.symm.trans hsecond) (by decide)

end Systeml.Runtime
