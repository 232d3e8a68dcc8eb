import Systeml.Lib.Bisect
import Systeml.Lib.Fallible
import Systeml.Unit.Values
import Mathlib.Data.List.Sort
import Mathlib.Data.List.Dedup

/-!
# Calendar fields

`parseField` reads the expression of one field: a comma list of chunks `from..to/step`,
or `*` for any value. What it collects is sorted and without repetitions, and within the
bounds of the field, so the set it returns is well formed (`FieldSet`).

The loop that steps through a chunk adds the step once more after the last value it
collects. That addition is the one that can leave `u32` (`Fits`); if it does not, the set
holds exactly the values of the chunks (`parseField_exact_iff`).
-/

namespace Systeml.Unit

open Systeml.Lib

/-! ## Parsing -/

/-- `u32::MAX`. -/
abbrev u32Max : Nat := 4294967295

/-- Why a field is refused. -/
inductive FieldError where
  /-- What the number parser says. -/
  | number (reason : String)
  /-- `range {first}..{last} out of [{lo},{hi}]`. -/
  | outOfRange (first last lo hi : Nat)
  | stepZero
  /-- An unknown weekday. -/
  | weekday (name : Str)
  deriving DecidableEq, Repr

/-- What `parse_field` ends with when not with a set. -/
inductive FieldFault where
  | err (e : FieldError)
  /-- `v += step` leaves `u32`. -/
  | overflow
  deriving DecidableEq, Repr

/-- `s.parse::<u32>()`. -/
def readU32 (s : Str) : Except FieldError Nat :=
  match parseBelow 4294967296 s with
  | some n => .ok n
  | none => .error (.number (intErrorBelow 4294967296 s))

theorem readU32_chars {s : Str} {n : Nat} (h : readU32 s = .ok n) :
    ∀ c ∈ s, c = '+' ∨ c.isDigit = true := by
  have hdigits : ∀ {t : Str} {m : Nat}, parseDigits t = some m → ∀ c ∈ t, c.isDigit = true := by
    intro t m ht
    unfold parseDigits at ht
    split at ht
    next hall => exact List.all_eq_true.mp hall.2
    next => exact absurd ht (by simp)
  have hsome : ∃ m, parseBelow 4294967296 s = some m := by
    unfold readU32 at h
    cases hb : parseBelow 4294967296 s with
    | none => rw [hb] at h; exact absurd h (by simp)
    | some m => exact ⟨m, rfl⟩
  obtain ⟨m, hm⟩ := hsome
  obtain ⟨hm, -⟩ := Option.filter_eq_some_iff.mp hm
  unfold parseU64 at hm
  split at hm
  next => exact absurd hm (by simp)
  next hminus =>
    obtain ⟨i, hi, -⟩ := Option.map_eq_some_iff.mp hm
    obtain ⟨hi, -⟩ := Option.filter_eq_some_iff.mp hi
    intro c hc
    split at hi
    next => exact absurd rfl hminus
    next t =>
      obtain ⟨k, hk, -⟩ := Option.map_eq_some_iff.mp hi
      obtain ⟨m, hm, -⟩ := Option.bind_eq_some_iff.mp hk
      rcases List.mem_cons.mp hc with rfl | hc
      · exact Or.inl rfl
      · exact Or.inr (hdigits hm c hc)
    next =>
      obtain ⟨k, hk, -⟩ := Option.map_eq_some_iff.mp hi
      obtain ⟨m, hm, -⟩ := Option.bind_eq_some_iff.mp hk
      exact Or.inr (hdigits hm c hc)

theorem readU32_notMem {s : Str} {n : Nat} (h : readU32 s = .ok n) {c : Char}
    (hplus : c ≠ '+') (hdigit : c.isDigit = false) : c ∉ s := by
  intro hc
  rcases readU32_chars h c hc with rfl | hd
  · exact hplus rfl
  · rw [hdigit] at hd
    cases hd

/-- `split_once("..")`. -/
def splitDots : Str → Option (Str × Str)
  | '.' :: '.' :: s => some ([], s)
  | c :: s => (splitDots s).map fun x => (c :: x.1, x.2)
  | [] => none

theorem splitDots_cons {c : Char} (hc : c ≠ '.') (s : Str) :
    splitDots (c :: s) = (splitDots s).map fun x => (c :: x.1, x.2) := by
  rw [splitDots]
  rintro t rfl
  exact absurd rfl hc

theorem splitDots_append {a : Str} (ha : '.' ∉ a) (b : Str) :
    splitDots (a ++ '.' :: '.' :: b) = some (a, b) := by
  induction a with
  | nil => rfl
  | cons c a ih =>
    rw [List.mem_cons, not_or] at ha
    rw [List.cons_append, splitDots_cons (Ne.symm ha.1), ih ha.2]
    rfl

theorem splitDots_notMem {s : Str} (hs : '.' ∉ s) : splitDots s = none := by
  induction s with
  | nil => rfl
  | cons c s ih =>
    rw [List.mem_cons, not_or] at hs
    rw [splitDots_cons (Ne.symm hs.1), ih hs.2]
    rfl

theorem splitDots_eq_some {s a b : Str} (h : splitDots s = some (a, b)) :
    s = a ++ '.' :: '.' :: b := by
  induction s using splitDots.induct generalizing a with
  | case1 s =>
    obtain ⟨rfl, rfl⟩ : [] = a ∧ s = b := by simpa [splitDots] using h
    rfl
  | case2 c s hno ih =>
    rw [splitDots] at h
    · obtain ⟨x, hx, hpair⟩ := Option.map_eq_some_iff.mp h
      obtain ⟨rfl, rfl⟩ : c :: x.1 = a ∧ x.2 = b := by simpa using hpair
      rw [List.cons_append, ← ih hx]
    · exact hno
  | case3 => exact absurd h (by simp [splitDots])

/-- The range of a chunk, without its step. -/
def readRange (lo hi : Nat) (rangePart : Str) : Except FieldError (Nat × Nat) :=
  if rangePart = "*".toList then .ok (lo, hi)
  else match splitDots rangePart with
    | some (a, b) => do return (← readU32 a, ← readU32 b)
    | none => do
      let v ← readU32 rangePart
      return (v, v)

/-- A chunk without its step, and the step. -/
def splitStep (chunk : Str) : Except FieldError (Str × Nat) :=
  match splitOnce '/' chunk with
  | some (r, st) => (readU32 st).map fun step => (r, step)
  | none => .ok (chunk, 1)

/-- First value, last value and step of a chunk. -/
def readChunk (lo hi : Nat) (chunk : Str) : Except FieldError (Nat × Nat × Nat) := do
  let (rangePart, step) ← splitStep chunk
  let (first, last) ← readRange lo hi rangePart
  if last < first ∨ first < lo ∨ hi < last then .error (.outOfRange first last lo hi)
  else return (first, last, step)

/-- `while v <= to`: the values from `v` on. -/
def stepValues (last step v : Nat) : Except FieldFault (List Nat) :=
  if v ≤ last then
    if _h : step = 0 then .error (.err .stepZero)
    else if u32Max < v + step then .error .overflow
    else (stepValues last step (v + step)).map (v :: ·)
  else .ok []
termination_by last + 1 - v
decreasing_by omega

/-- The loop over the chunks. -/
def fieldValues (lo hi : Nat) : List Str → Except FieldFault (List Nat)
  | [] => .ok []
  | chunk :: chunks =>
    match readChunk lo hi chunk with
    | .error e => .error (.err e)
    | .ok (first, last, step) => do
      let vs ← stepValues last step first
      let rest ← fieldValues lo hi chunks
      return vs ++ rest

/-! ## The texts of chunks -/

/-- The ranges that a text writes. -/
inductive RangeText (lo hi : Nat) : Str → Nat → Nat → Prop
  | any : RangeText lo hi "*".toList lo hi
  | range {a b : Str} {first last : Nat} (ha : readU32 a = .ok first)
      (hb : readU32 b = .ok last) : RangeText lo hi (a ++ '.' :: '.' :: b) first last
  | single {s : Str} {v : Nat} (hv : readU32 s = .ok v) : RangeText lo hi s v v

/-- The chunks that a text writes: a range, and a step after a slash. -/
inductive ChunkText (lo hi : Nat) : Str → Nat → Nat → Nat → Prop
  | plain {r : Str} {first last : Nat} (hr : RangeText lo hi r first last) :
      ChunkText lo hi r first last 1
  | stepped {r st : Str} {first last step : Nat} (hr : RangeText lo hi r first last)
      (hst : readU32 st = .ok step) : ChunkText lo hi (r ++ '/' :: st) first last step

theorem RangeText.slash_notMem {lo hi : Nat} {r : Str} {first last : Nat}
    (h : RangeText lo hi r first last) : '/' ∉ r := by
  cases h with
  | any => decide
  | range ha hb =>
    have hna := readU32_notMem ha (c := '/') (by decide) (by decide)
    have hnb := readU32_notMem hb (c := '/') (by decide) (by decide)
    simp [hna, hnb]
  | single hv => exact readU32_notMem hv (by decide) (by decide)

/-- `readRange` reads what the text writes. -/
theorem readRange_eq_ok {lo hi : Nat} {r : Str} {first last : Nat} :
    readRange lo hi r = .ok (first, last) ↔ RangeText lo hi r first last := by
  constructor
  · intro h
    unfold readRange at h
    split at h
    next hstar =>
      obtain ⟨rfl, rfl⟩ : lo = first ∧ hi = last := by simpa using h
      rw [hstar]
      exact .any
    next =>
      split at h
      next a b hdots =>
        obtain ⟨x, hx, h⟩ := bind_ok.mp h
        obtain ⟨y, hy, h⟩ := bind_ok.mp h
        obtain ⟨rfl, rfl⟩ : x = first ∧ y = last := by simpa [pure, Except.pure] using h
        rw [splitDots_eq_some hdots]
        exact .range hx hy
      next =>
        obtain ⟨x, hx, h⟩ := bind_ok.mp h
        obtain ⟨rfl, rfl⟩ : x = first ∧ x = last := by simpa [pure, Except.pure] using h
        exact .single hx
  · intro h
    unfold readRange
    cases h with
    | any => rw [if_pos rfl]
    | range ha hb =>
      have hdot := readU32_notMem ha (c := '.') (by decide) (by decide)
      rw [if_neg, splitDots_append hdot]
      · dsimp only
        rw [ha, hb]
        rfl
      · intro hstar
        have : '.' ∈ "*".toList := by
          rw [← hstar]
          simp
        exact absurd this (by decide)
    | single hv =>
      have hdot := readU32_notMem hv (c := '.') (by decide) (by decide)
      rw [if_neg, splitDots_notMem hdot, hv]
      · rfl
      · rintro rfl
        exact readU32_notMem hv (c := '*') (by decide) (by decide) (by decide)

/-- `splitStep` cuts the text of a chunk where it ends its range. -/
theorem chunkText_iff {lo hi : Nat} {chunk : Str} {first last step : Nat} :
    ChunkText lo hi chunk first last step ↔
      ∃ r, splitStep chunk = .ok (r, step) ∧ readRange lo hi r = .ok (first, last) := by
  constructor
  · intro h
    unfold splitStep
    cases h with
    | plain hr =>
      rw [splitOnce_eq_none.mpr hr.slash_notMem]
      exact ⟨chunk, rfl, readRange_eq_ok.mpr hr⟩
    | @stepped r st _ _ _ hr hst =>
      rw [splitOnce_eq_some.mpr ⟨rfl, hr.slash_notMem⟩]
      exact ⟨r, by simp [hst, Except.map], readRange_eq_ok.mpr hr⟩
  · rintro ⟨r, hsplit, hrange⟩
    have hr := readRange_eq_ok.mp hrange
    unfold splitStep at hsplit
    split at hsplit
    next r' st hslash =>
      obtain ⟨k, hst, hpair⟩ := map_eq_ok hsplit
      obtain ⟨rfl, rfl⟩ : r = r' ∧ step = k := by simpa using hpair
      obtain ⟨rfl, -⟩ := splitOnce_eq_some.mp hslash
      exact .stepped hr hst
    next =>
      obtain ⟨rfl, rfl⟩ : chunk = r ∧ 1 = step := by simpa using hsplit
      exact .plain hr

/-- A text writes one chunk at most. -/
theorem ChunkText.unique {lo hi : Nat} {chunk : Str} {first last step first' last' step' : Nat}
    (h : ChunkText lo hi chunk first last step) (h' : ChunkText lo hi chunk first' last' step') :
    first = first' ∧ last = last' ∧ step = step' := by
  obtain ⟨r, hsplit, hrange⟩ := chunkText_iff.mp h
  obtain ⟨r', hsplit', hrange'⟩ := chunkText_iff.mp h'
  obtain ⟨rfl, rfl⟩ : r = r' ∧ step = step' := by simpa using hsplit.symm.trans hsplit'
  obtain ⟨rfl, rfl⟩ : first = first' ∧ last = last' := by simpa using hrange.symm.trans hrange'
  exact ⟨rfl, rfl, rfl⟩

/-- A chunk that the loop goes through: within the bounds, with a step. -/
structure ChunkOk (lo hi : Nat) (chunk : Str) (first last step : Nat) : Prop where
  text : ChunkText lo hi chunk first last step
  lower : lo ≤ first
  ordered : first ≤ last
  upper : last ≤ hi
  step_pos : 0 < step

/-- `readChunk` reads what the text writes, if that is within the bounds. -/
theorem readChunk_eq_ok {lo hi : Nat} {chunk : Str} {first last step : Nat} :
    readChunk lo hi chunk = .ok (first, last, step) ↔
      ChunkText lo hi chunk first last step ∧ lo ≤ first ∧ first ≤ last ∧ last ≤ hi := by
  rw [chunkText_iff]
  constructor
  · intro h
    obtain ⟨⟨r, n⟩, hsplit, h⟩ := bind_ok.mp h
    obtain ⟨⟨x, y⟩, hrange, h⟩ := bind_ok.mp h
    dsimp only at h
    split at h
    next => exact absurd h (by simp)
    next hbound =>
      obtain ⟨rfl, rfl, rfl⟩ : x = first ∧ y = last ∧ n = step := by
        simpa [pure, Except.pure] using h
      exact ⟨⟨r, hsplit, hrange⟩, by omega⟩
  · rintro ⟨⟨r, hsplit, hrange⟩, hlo, hle, hhi⟩
    refine bind_ok.mpr ⟨_, hsplit, bind_ok.mpr ⟨_, hrange, ?_⟩⟩
    exact if_neg (by omega)

/-! ## The sets -/

/-- `sort_unstable` and `dedup`. -/
def sortDedup (vs : List Nat) : List Nat := (vs.insertionSort (· ≤ ·)).dedup

theorem mem_sortDedup {vs : List Nat} {v : Nat} : v ∈ sortDedup vs ↔ v ∈ vs := by
  unfold sortDedup
  rw [List.mem_dedup, List.mem_insertionSort]

theorem pairwise_sortDedup (vs : List Nat) : (sortDedup vs).Pairwise (· < ·) := by
  have hle : (sortDedup vs).Pairwise (· ≤ ·) :=
    (List.pairwise_insertionSort (· ≤ ·) vs).sublist (List.dedup_sublist _)
  have hne : (sortDedup vs).Nodup := List.nodup_dedup _
  exact (hle.and hne).imp fun h => Nat.lt_of_le_of_ne h.1 h.2

/-- The set of some values. -/
def FieldSet.ofValues {lo hi : Nat} (vs : List Nat) (hne : vs ≠ [])
    (hb : ∀ v ∈ vs, lo ≤ v ∧ v ≤ hi) : FieldSet lo hi where
  values := some (sortDedup vs)
  valid := by
    rintro ws hws
    obtain rfl := Option.some.inj hws
    refine ⟨?_, pairwise_sortDedup vs, fun v hv => hb v (mem_sortDedup.mp hv)⟩
    obtain ⟨v, hv⟩ := List.exists_mem_of_ne_nil vs hne
    exact List.ne_nil_of_mem (mem_sortDedup.mpr hv)

/-! ## What the loops collect -/

/-- `v` is a value of the chunk `first..last/step`. -/
def InChunk (first last step v : Nat) : Prop := ∃ k, v = first + k * step ∧ v ≤ last

/-- Stepping through the chunk stays in `u32`. -/
def Fits (first last step : Nat) : Prop :=
  ∀ k, first + k * step ≤ last → first + (k + 1) * step ≤ u32Max

theorem inChunk_step {first last step v : Nat} (h : first ≤ last) :
    InChunk first last step v ↔ v = first ∨ InChunk (first + step) last step v := by
  constructor
  · rintro ⟨k, rfl, hle⟩
    cases k with
    | zero => exact Or.inl (by simp)
    | succ k =>
      refine Or.inr ⟨k, ?_, hle⟩
      rw [Nat.succ_mul]
      omega
  · rintro (rfl | ⟨k, rfl, hle⟩)
    · exact ⟨0, by simp, h⟩
    · refine ⟨k + 1, ?_, hle⟩
      rw [Nat.succ_mul]
      omega

theorem fits_step {first last step : Nat} (h : first ≤ last) :
    Fits first last step ↔ first + step ≤ u32Max ∧ Fits (first + step) last step := by
  unfold Fits
  constructor
  · intro hf
    refine ⟨by simpa using hf 0 (by simpa using h), fun k hk => ?_⟩
    have := hf (k + 1) (by rw [Nat.succ_mul]; omega)
    rw [Nat.succ_mul] at this
    omega
  · rintro ⟨h0, hf⟩ k hk
    cases k with
    | zero => simpa using h0
    | succ k =>
      have := hf k (by rw [Nat.succ_mul] at hk; omega)
      rw [Nat.succ_mul]
      omega

/-- **Stepping through a chunk** collects its values, or overflows. -/
theorem stepValues_spec (last : Nat) {step : Nat} (hstep : 0 < step) (v : Nat) :
    (Fits v last step ∧ ∃ vs, stepValues last step v = .ok vs ∧
      ∀ x, x ∈ vs ↔ InChunk v last step x) ∨
    (¬ Fits v last step ∧ stepValues last step v = .error .overflow) := by
  induction hn : last + 1 - v using Nat.strongRecOn generalizing v with
  | _ n ih =>
    rw [stepValues]
    by_cases hle : v ≤ last
    · rw [if_pos hle, dif_neg (by omega)]
      by_cases hover : u32Max < v + step
      · rw [if_pos hover]
        exact Or.inr ⟨fun hf => absurd ((fits_step hle).mp hf).1 (by omega), rfl⟩
      · rw [if_neg hover]
        rcases ih _ (by omega) (v + step) rfl with ⟨hf, vs, hvs, hmem⟩ | ⟨hf, herr⟩
        · refine Or.inl ⟨(fits_step hle).mpr ⟨by omega, hf⟩, v :: vs, by rw [hvs]; rfl, ?_⟩
          intro x
          rw [List.mem_cons, hmem, inChunk_step hle]
        · exact Or.inr ⟨fun h => hf ((fits_step hle).mp h).2, by rw [herr]; rfl⟩
    · rw [if_neg hle]
      refine Or.inl ⟨fun k hk => absurd hk (by omega), [], rfl, fun x => ?_⟩
      refine iff_of_false (by simp) ?_
      rintro ⟨k, rfl, hx⟩
      omega

/-! ## The loop over the chunks -/

/-- `v` is a value of one of the chunks. -/
def Listed (lo hi : Nat) (chunks : List Str) (v : Nat) : Prop :=
  ∃ chunk ∈ chunks, ∃ first last step,
    ChunkText lo hi chunk first last step ∧ InChunk first last step v

/-- No chunk that the loop gets to leaves `u32`. -/
def ChunksFit (lo hi : Nat) (chunks : List Str) : Prop :=
  ∀ pre chunk post, chunks = pre ++ chunk :: post →
    (∀ c ∈ pre, ∃ first last step, ChunkOk lo hi c first last step) →
    ∀ first last step, ChunkOk lo hi chunk first last step → Fits first last step

theorem chunksFit_of_not_ok {lo hi : Nat} {chunk : Str}
    (h : ∀ first last step, ¬ ChunkOk lo hi chunk first last step) (chunks : List Str) :
    ChunksFit lo hi (chunk :: chunks) := by
  intro pre c post hsplit hpre first last step hok
  cases pre with
  | nil =>
    obtain ⟨rfl, -⟩ := List.cons.inj hsplit
    exact absurd hok (h _ _ _)
  | cons d pre =>
    obtain ⟨rfl, -⟩ := List.cons.inj hsplit
    obtain ⟨_, _, _, hd⟩ := hpre chunk (List.mem_cons_self ..)
    exact absurd hd (h _ _ _)

theorem chunksFit_cons {lo hi : Nat} {chunk : Str} {first last step : Nat}
    (hok : ChunkOk lo hi chunk first last step) {chunks : List Str} :
    ChunksFit lo hi (chunk :: chunks) ↔ Fits first last step ∧ ChunksFit lo hi chunks := by
  constructor
  · intro h
    refine ⟨h [] chunk chunks rfl (by simp) _ _ _ hok, fun pre c post hsplit hpre => ?_⟩
    refine h (chunk :: pre) c post (by rw [hsplit]; rfl) fun d hd => ?_
    rcases List.mem_cons.mp hd with rfl | hd
    · exact ⟨_, _, _, hok⟩
    · exact hpre d hd
  · rintro ⟨hfits, hrest⟩ pre c post hsplit hpre first' last' step' hok'
    cases pre with
    | nil =>
      obtain ⟨rfl, -⟩ := List.cons.inj hsplit
      obtain ⟨rfl, rfl, rfl⟩ := hok.text.unique hok'.text
      exact hfits
    | cons d pre =>
      obtain ⟨-, hsplit⟩ := List.cons.inj hsplit
      exact hrest pre c post hsplit (fun d hd => hpre d (List.mem_cons_of_mem _ hd)) _ _ _ hok'

/-- How the loop over the chunks ends. -/
inductive ChunksEnd (lo hi : Nat) (chunks : List Str) : Except FieldFault (List Nat) → Prop
  | ok {vs : List Nat} (hfit : ChunksFit lo hi chunks)
      (hok : ∀ c ∈ chunks, ∃ first last step, ChunkOk lo hi c first last step)
      (hmem : ∀ v, v ∈ vs ↔ Listed lo hi chunks v) : ChunksEnd lo hi chunks (.ok vs)
  | refused {e : FieldError} (hfit : ChunksFit lo hi chunks) :
      ChunksEnd lo hi chunks (.error (.err e))
  | overflow (hfit : ¬ ChunksFit lo hi chunks) : ChunksEnd lo hi chunks (.error .overflow)

theorem listed_cons {lo hi : Nat} {chunk : Str} {first last step : Nat}
    (htext : ChunkText lo hi chunk first last step) {chunks : List Str} {v : Nat} :
    Listed lo hi (chunk :: chunks) v ↔ InChunk first last step v ∨ Listed lo hi chunks v := by
  constructor
  · rintro ⟨c, hc, first', last', step', htext', hin⟩
    rcases List.mem_cons.mp hc with rfl | hc
    · obtain ⟨rfl, rfl, rfl⟩ := htext.unique htext'
      exact Or.inl hin
    · exact Or.inr ⟨c, hc, _, _, _, htext', hin⟩
  · rintro (hin | ⟨c, hc, hrest⟩)
    · exact ⟨chunk, List.mem_cons_self .., _, _, _, htext, hin⟩
    · exact ⟨c, List.mem_cons_of_mem _ hc, hrest⟩

theorem fieldValues_ends (lo hi : Nat) (chunks : List Str) :
    ChunksEnd lo hi chunks (fieldValues lo hi chunks) := by
  induction chunks with
  | nil =>
    refine .ok (fun pre c post hsplit => absurd hsplit (by simp)) (by simp) fun v => ?_
    exact iff_of_false (by simp) (by simp [Listed])
  | cons chunk chunks ih =>
    rw [fieldValues]
    cases hread : readChunk lo hi chunk with
    | error e =>
      refine .refused (chunksFit_of_not_ok (fun first last step hok => ?_) chunks)
      have := readChunk_eq_ok.mpr ⟨hok.text, hok.lower, hok.ordered, hok.upper⟩
      rw [hread] at this
      cases this
    | ok x =>
      obtain ⟨first, last, step⟩ := x
      obtain ⟨htext, hlo, hle, hhi⟩ := readChunk_eq_ok.mp hread
      dsimp only
      rcases Nat.eq_zero_or_pos step with rfl | hstep
      · have hzero : stepValues last 0 first = .error (.err .stepZero) := by
          rw [stepValues, if_pos hle, dif_pos rfl]
        rw [hzero]
        refine .refused (chunksFit_of_not_ok (fun first' last' step' hok => ?_) chunks)
        obtain ⟨-, -, rfl⟩ := htext.unique hok.text
        exact absurd hok.step_pos (by omega)
      · have hok : ChunkOk lo hi chunk first last step := ⟨htext, hlo, hle, hhi, hstep⟩
        rcases stepValues_spec last hstep first with ⟨hfits, vs, hvs, hmem⟩ | ⟨hfits, hover⟩
        · rw [hvs]
          generalize fieldValues lo hi chunks = r at ih
          cases ih with
          | ok hfit hall hrest =>
            refine .ok ((chunksFit_cons hok).mpr ⟨hfits, hfit⟩) (fun c hc => ?_) fun v => ?_
            · rcases List.mem_cons.mp hc with rfl | hc
              · exact ⟨_, _, _, hok⟩
              · exact hall c hc
            · rw [List.mem_append, hmem, hrest, listed_cons htext]
          | refused hfit => exact .refused ((chunksFit_cons hok).mpr ⟨hfits, hfit⟩)
          | overflow hfit => exact .overflow fun h => hfit ((chunksFit_cons hok).mp h).2
        · rw [hover]
          exact .overflow fun h => hfits ((chunksFit_cons hok).mp h).1

/-- The values collected are some, and within the bounds of the field. -/
theorem fieldValues_valid {lo hi : Nat} {chunks : List Str} (hne : chunks ≠ []) {vs : List Nat}
    (h : fieldValues lo hi chunks = .ok vs) : vs ≠ [] ∧ ∀ v ∈ vs, lo ≤ v ∧ v ≤ hi := by
  have hends := fieldValues_ends lo hi chunks
  rw [h] at hends
  cases hends with
  | ok _ hok hmem =>
    constructor
    · obtain ⟨chunk, hc⟩ := List.exists_mem_of_ne_nil chunks hne
      obtain ⟨first, last, step, hchunk⟩ := hok chunk hc
      have hfirst : first ∈ vs := (hmem first).mpr
        ⟨chunk, hc, first, last, step, hchunk.text, 0, by simp, hchunk.ordered⟩
      exact List.ne_nil_of_mem hfirst
    · intro v hv
      obtain ⟨chunk, hc, first, last, step, htext, k, rfl, hle⟩ := (hmem v).mp hv
      obtain ⟨first', last', step', hchunk⟩ := hok chunk hc
      obtain ⟨rfl, rfl, rfl⟩ := htext.unique hchunk.text
      exact ⟨Nat.le_trans hchunk.lower (Nat.le_add_right ..), Nat.le_trans hle hchunk.upper⟩

/-! ## What a field matches -/

/-- `parse_field`. -/
def parseField (lo hi : Nat) (s : Str) : Except FieldFault (FieldSet lo hi) :=
  if s = "*".toList then .ok .any
  else
    match h : fieldValues lo hi (splitOn ',' s) with
    | .ok vs =>
      have hvalid := fieldValues_valid (splitOn_ne_nil s) h
      .ok (.ofValues vs hvalid.1 hvalid.2)
    | .error e => .error e

/-- How `parse_field` ends. -/
theorem parseField_cases (lo hi : Nat) (s : Str) :
    (s = "*".toList ∧ parseField lo hi s = .ok .any) ∨
    (s ≠ "*".toList ∧ ChunksFit lo hi (splitOn ',' s) ∧ ∃ fs vs, parseField lo hi s = .ok fs ∧
      fs.values = some (sortDedup vs) ∧ ∀ v, v ∈ vs ↔ Listed lo hi (splitOn ',' s) v) ∨
    (s ≠ "*".toList ∧ ChunksFit lo hi (splitOn ',' s) ∧ ∃ e, parseField lo hi s = .error (.err e)) ∨
    (s ≠ "*".toList ∧ ¬ ChunksFit lo hi (splitOn ',' s) ∧
      parseField lo hi s = .error .overflow) := by
  by_cases hstar : s = "*".toList
  · exact Or.inl ⟨hstar, if_pos hstar⟩
  have hends := fieldValues_ends lo hi (splitOn ',' s)
  unfold parseField
  rw [if_neg hstar]
  split
  next vs h =>
    rw [h] at hends
    cases hends with
    | ok hfit _ hmem => exact Or.inr (Or.inl ⟨hstar, hfit, _, vs, rfl, rfl, hmem⟩)
  next e h =>
    rw [h] at hends
    cases hends with
    | refused hfit => exact Or.inr (Or.inr (Or.inl ⟨hstar, hfit, _, rfl⟩))
    | overflow hfit => exact Or.inr (Or.inr (Or.inr ⟨hstar, hfit, rfl⟩))

/-- The field denotes its expression: no addition overflows, and a set that is returned
matches the values of the chunks, no others unless it is a wildcard, and is searched by
bisection. -/
def FieldExact (lo hi : Nat) (s : Str) : Prop :=
  parseField lo hi s ≠ .error .overflow ∧
    ∀ fs, parseField lo hi s = .ok fs →
      (∀ v, lo ≤ v → v ≤ hi →
        (fs.matchesValue v = true ↔ s = "*".toList ∨ Listed lo hi (splitOn ',' s) v)) ∧
      (∀ v, ¬ (lo ≤ v ∧ v ≤ hi) → fs.matchesValue v = true → s = "*".toList) ∧
      ∀ vs, fs.values = some vs →
        vs.Pairwise (· < ·) ∧ ∀ v, bisect vs v = fs.matchesValue v

/-- **A field denotes its expression** exactly when stepping through its chunks stays in
`u32`. -/
theorem parseField_exact_iff (lo hi : Nat) (s : Str) :
    FieldExact lo hi s ↔ s = "*".toList ∨ ChunksFit lo hi (splitOn ',' s) := by
  have hsearch : ∀ (fs : FieldSet lo hi) vs, fs.values = some vs →
      vs.Pairwise (· < ·) ∧ ∀ v, bisect vs v = fs.matchesValue v := by
    intro fs vs hvs
    have hsorted := (fs.valid vs hvs).2.1
    refine ⟨hsorted, fun v => Bool.eq_iff_iff.mpr ?_⟩
    rw [bisect_iff hsorted, FieldSet.matchesValue_some hvs]
  rcases parseField_cases lo hi s with ⟨hstar, hany⟩ | ⟨hstar, hfit, fs, vs, hfs, hvs, hmem⟩ |
    ⟨hstar, hfit, e, he⟩ | ⟨hstar, hfit, hover⟩
  · refine iff_of_true ⟨by rw [hany]; simp, fun fs hfs => ?_⟩ (Or.inl hstar)
    obtain rfl : FieldSet.any = fs := Except.ok.inj (hany.symm.trans hfs)
    exact ⟨fun v _ _ => iff_of_true rfl (Or.inl hstar), fun _ _ _ => hstar, hsearch _⟩
  · refine iff_of_true ⟨by rw [hfs]; simp, fun fs' hfs' => ?_⟩ (Or.inr hfit)
    obtain rfl : fs = fs' := Except.ok.inj (hfs.symm.trans hfs')
    have hmatch : ∀ v, fs.matchesValue v = true ↔ Listed lo hi (splitOn ',' s) v := by
      intro v
      rw [FieldSet.matchesValue_some hvs, mem_sortDedup, hmem]
    refine ⟨fun v _ _ => ?_, fun v hv hmatched => ?_, hsearch fs⟩
    · rw [hmatch, or_iff_right hstar]
    · have hin := (FieldSet.matchesValue_some hvs v).mp hmatched
      exact absurd ((fs.valid _ hvs).2.2 v hin) hv
  · exact iff_of_true ⟨by rw [he]; simp, fun fs hfs => by rw [he] at hfs; cases hfs⟩ (Or.inr hfit)
  · exact iff_of_false (fun h => h.1 hover) (not_or.mpr ⟨hstar, hfit⟩)

/-- A step of `u32::MAX` overflows at any value but zero. -/
theorem not_parseField_exact : ¬ ∀ (lo hi : Nat) (s : Str), lo ≤ hi → FieldExact lo hi s := by
  intro h
  have hread : readChunk 0 59 "5/4294967295".toList = .ok (5, 5, 4294967295) := by decide
  have hvalues : fieldValues 0 59 (splitOn ',' "5/4294967295".toList) = .error .overflow := by
    rw [show splitOn ',' "5/4294967295".toList = ["5/4294967295".toList] by decide, fieldValues,
      hread]
    simp [stepValues, u32Max, bind, Except.bind]
  have hover : parseField 0 59 "5/4294967295".toList = .error .overflow := by
    unfold parseField
    rw [if_neg (by decide)]
    split
    next vs hvs => rw [hvalues] at hvs; cases hvs
    next e he => rw [hvalues] at he; rw [← Except.error.inj he]
  exact (h 0 59 "5/4294967295".toList (by decide)).1 hover

end Systeml.Unit
