import Mathlib.Data.List.Basic

/-!
# Insertion-ordered maps and sets

A map that iterates in the order its keys were first inserted. The entry list
carries the proof that no key occurs twice, so lookups and membership of
entries are the same thing (`mem_entries`), whatever built the map.

`upsert` is the one mutating primitive: replace the value of a key in place, or
append the key at the end. `insert`, the entry-or-default update and the
in-place modification are `upsert` at particular functions; `erase` removes a
key and keeps the order of the others.
-/

namespace Systeml.Lib

variable {K V : Type} [DecidableEq K]

/-- Value of the first entry with the key. -/
def getL : List (K × V) → K → Option V
  | [], _ => none
  | (a, v) :: m, k => if a = k then some v else getL m k

/-- Replace the value at `k` in place, or append the key. -/
def upsertL : List (K × V) → K → (Option V → V) → List (K × V)
  | [], k, f => [(k, f none)]
  | (a, v) :: m, k, f => if a = k then (a, f (some v)) :: m else (a, v) :: upsertL m k f

/-- Drop the entry at `k`, keeping the order of the others. -/
def eraseL : List (K × V) → K → List (K × V)
  | [], _ => []
  | (a, v) :: m, k => if a = k then m else (a, v) :: eraseL m k

theorem getL_eq_none {k : K} : ∀ {m : List (K × V)}, getL m k = none ↔ k ∉ m.map Prod.fst
  | [] => by simp [getL]
  | (a, v) :: m => by
    unfold getL
    by_cases h : a = k
    · simp [h]
    · rw [if_neg h, getL_eq_none, List.map_cons, List.mem_cons, not_or]
      exact ⟨fun hk => ⟨fun e => h e.symm, hk⟩, fun hk => hk.2⟩

theorem mem_of_getL {k : K} {v : V} : ∀ {m : List (K × V)}, getL m k = some v → (k, v) ∈ m
  | [], h => by simp [getL] at h
  | (a, w) :: m, h => by
    unfold getL at h
    by_cases hak : a = k
    · rw [if_pos hak] at h
      obtain rfl : w = v := by simpa using h
      rw [hak]
      exact List.mem_cons_self ..
    · rw [if_neg hak] at h
      exact List.mem_cons_of_mem _ (mem_of_getL h)

theorem getL_of_mem {k : K} {v : V} : ∀ {m : List (K × V)}, (m.map Prod.fst).Nodup →
    (k, v) ∈ m → getL m k = some v
  | [], _, h => by simp at h
  | (a, w) :: m, hn, h => by
    rw [List.map_cons] at hn
    obtain ⟨ha, hm⟩ := List.nodup_cons.mp hn
    unfold getL
    rcases List.mem_cons.mp h with he | h'
    · obtain ⟨rfl, rfl⟩ : k = a ∧ v = w := by simpa using he
      rw [if_pos rfl]
    · have hk : k ∈ m.map Prod.fst := List.mem_map.mpr ⟨(k, v), h', rfl⟩
      rw [if_neg (fun e : a = k => ha (e ▸ hk))]
      exact getL_of_mem hm h'

theorem getL_upsertL_self (k : K) (f : Option V → V) : ∀ (m : List (K × V)),
    getL (upsertL m k f) k = some (f (getL m k))
  | [] => by simp [upsertL, getL]
  | (a, v) :: m => by
    unfold upsertL
    by_cases h : a = k
    · simp [h, getL]
    · rw [if_neg h, getL, if_neg h, getL_upsertL_self k f m, getL, if_neg h]

theorem getL_upsertL_ne {k k' : K} (h : k' ≠ k) (f : Option V → V) : ∀ (m : List (K × V)),
    getL (upsertL m k f) k' = getL m k'
  | [] => by simp [upsertL, getL, Ne.symm h]
  | (a, v) :: m => by
    unfold upsertL
    by_cases ha : a = k
    · have hk : k ≠ k' := Ne.symm h
      simp [ha, getL, hk]
    · rw [if_neg ha, getL, getL, getL_upsertL_ne h f m]

theorem keys_upsertL (k : K) (f : Option V → V) : ∀ (m : List (K × V)),
    (upsertL m k f).map Prod.fst =
      if k ∈ m.map Prod.fst then m.map Prod.fst else m.map Prod.fst ++ [k]
  | [] => by simp [upsertL]
  | (a, v) :: m => by
    unfold upsertL
    by_cases h : a = k
    · simp [h]
    · rw [if_neg h, List.map_cons, keys_upsertL k f m]
      by_cases hk : k ∈ m.map Prod.fst
      · rw [if_pos hk, if_pos (by rw [List.map_cons]; exact List.mem_cons_of_mem _ hk)]
        rfl
      · rw [if_neg hk, if_neg]
        · rfl
        · rw [List.map_cons, List.mem_cons, not_or]
          exact ⟨fun e => h e.symm, hk⟩

theorem upsertL_of_notMem {k : K} {f : Option V → V} : ∀ {m : List (K × V)},
    k ∉ m.map Prod.fst → upsertL m k f = m ++ [(k, f none)]
  | [], _ => rfl
  | (a, v) :: m, h => by
    rw [List.map_cons, List.mem_cons, not_or] at h
    rw [upsertL, if_neg (fun e => h.1 e.symm), upsertL_of_notMem h.2]
    rfl

theorem keys_eraseL (k : K) : ∀ (m : List (K × V)),
    (eraseL m k).map Prod.fst = (m.map Prod.fst).erase k
  | [] => by simp [eraseL]
  | (a, v) :: m => by
    unfold eraseL
    by_cases h : a = k
    · simp [h]
    · rw [if_neg h, List.map_cons, keys_eraseL k m, List.map_cons,
        List.erase_cons_tail (by simpa using h)]

theorem getL_eraseL_ne {k k' : K} (h : k' ≠ k) : ∀ (m : List (K × V)),
    getL (eraseL m k) k' = getL m k'
  | [] => rfl
  | (a, v) :: m => by
    unfold eraseL
    by_cases ha : a = k
    · have hk : k ≠ k' := Ne.symm h
      simp [ha, getL, hk]
    · rw [if_neg ha, getL, getL, getL_eraseL_ne h m]

theorem getL_map {W : Type} (h : K → V → W) (k : K) : ∀ (m : List (K × V)),
    getL (m.map fun x => (x.1, h x.1 x.2)) k = (getL m k).map (h k)
  | [] => rfl
  | (a, v) :: m => by
    rw [List.map_cons, getL, getL]
    by_cases ha : a = k
    · simp [ha]
    · rw [if_neg ha, if_neg ha, getL_map h k m]

theorem upsertL_map {W : Type} {h : K → V → W} {k : K} {f : Option V → V}
    {g : Option W → W} (hfg : ∀ o, g (o.map (h k)) = h k (f o)) : ∀ (m : List (K × V)),
    upsertL (m.map fun x => (x.1, h x.1 x.2)) k g =
      (upsertL m k f).map fun x => (x.1, h x.1 x.2)
  | [] => by
    have hn := hfg none
    simpa [upsertL] using hn
  | (a, v) :: m => by
    rw [List.map_cons, upsertL, upsertL]
    by_cases ha : a = k
    · subst ha
      have hs := hfg (some v)
      simpa using hs
    · rw [if_neg ha, if_neg ha, upsertL_map hfg m]
      rfl

/-- Two updates of one key are one. -/
theorem upsertL_upsertL (k : K) (f g : Option V → V) : ∀ (m : List (K × V)),
    upsertL (upsertL m k f) k g = upsertL m k fun o => g (some (f o))
  | [] => by simp [upsertL]
  | (a, v) :: m => by
    by_cases ha : a = k
    · simp [upsertL, ha]
    · rw [upsertL, if_neg ha, upsertL, if_neg ha, upsertL_upsertL k f g m, upsertL, if_neg ha]

/-- A map iterated in insertion order, with the proof that keys are unique. -/
structure IndexMap (K V : Type) [DecidableEq K] where
  entries : List (K × V)
  nodup : (entries.map Prod.fst).Nodup

namespace IndexMap

/-- The empty map. -/
def empty : IndexMap K V := ⟨[], List.nodup_nil⟩

instance : Inhabited (IndexMap K V) := ⟨empty⟩

/-- The keys, in insertion order. -/
def keys (m : IndexMap K V) : List K := m.entries.map Prod.fst

/-- Lookup. -/
def get? (m : IndexMap K V) (k : K) : Option V := getL m.entries k

/-- Whether the key is present. -/
def contains (m : IndexMap K V) (k : K) : Bool := (m.get? k).isSome

/-- Replace the value of `k` in place, or append the key at the end. -/
def upsert (m : IndexMap K V) (k : K) (f : Option V → V) : IndexMap K V where
  entries := upsertL m.entries k f
  nodup := by
    rw [keys_upsertL]
    split
    next => exact m.nodup
    next h => exact List.nodup_append.mpr ⟨m.nodup, List.pairwise_singleton _ k,
      fun a ha b hb e => h (by rw [List.mem_singleton.mp hb] at e; exact e ▸ ha)⟩

/-- Set the value of `k`. -/
def insert (m : IndexMap K V) (k : K) (v : V) : IndexMap K V := m.upsert k fun _ => v

/-- Change the value of `k` if it is present. -/
def modify (m : IndexMap K V) (k : K) (f : V → V) : IndexMap K V :=
  match m.get? k with
  | some v => m.insert k (f v)
  | none => m

/-- Remove `k`, keeping the order of the other keys. -/
def erase (m : IndexMap K V) (k : K) : IndexMap K V where
  entries := eraseL m.entries k
  nodup := by
    rw [keys_eraseL]
    exact m.nodup.erase k

/-- Collect key-value pairs; a later pair replaces the value of an earlier one. -/
def ofList (l : List (K × V)) : IndexMap K V := l.foldl (fun m x => m.insert x.1 x.2) empty

theorem keys_nodup (m : IndexMap K V) : m.keys.Nodup := m.nodup

@[simp] theorem get?_empty (k : K) : (empty : IndexMap K V).get? k = none := rfl

@[simp] theorem keys_empty : (empty : IndexMap K V).keys = [] := rfl

theorem get?_eq_none {m : IndexMap K V} {k : K} : m.get? k = none ↔ k ∉ m.keys :=
  getL_eq_none

theorem mem_entries {m : IndexMap K V} {k : K} {v : V} :
    (k, v) ∈ m.entries ↔ m.get? k = some v :=
  ⟨getL_of_mem m.nodup, mem_of_getL⟩

theorem mem_keys {m : IndexMap K V} {k : K} : k ∈ m.keys ↔ ∃ v, m.get? k = some v := by
  cases h : m.get? k with
  | none => simp [get?_eq_none.mp h]
  | some v =>
    have hk : k ∈ m.keys := List.mem_map.mpr ⟨(k, v), mem_entries.mpr h, rfl⟩
    simp [hk]

theorem contains_iff {m : IndexMap K V} {k : K} : m.contains k = true ↔ k ∈ m.keys := by
  rw [contains, Option.isSome_iff_exists, mem_keys]

theorem keys_upsert (m : IndexMap K V) (k : K) (f : Option V → V) :
    (m.upsert k f).keys = if k ∈ m.keys then m.keys else m.keys ++ [k] :=
  keys_upsertL k f m.entries

@[simp] theorem mem_keys_upsert {m : IndexMap K V} {k k' : K} {f : Option V → V} :
    k' ∈ (m.upsert k f).keys ↔ k' = k ∨ k' ∈ m.keys := by
  rw [keys_upsert]
  split
  next h => exact ⟨Or.inr, fun h' => h'.elim (fun e => e ▸ h) id⟩
  next => simp [or_comm]

@[simp] theorem get?_upsert_self (m : IndexMap K V) (k : K) (f : Option V → V) :
    (m.upsert k f).get? k = some (f (m.get? k)) :=
  getL_upsertL_self k f m.entries

theorem get?_upsert_ne {k k' : K} (h : k' ≠ k) (m : IndexMap K V) (f : Option V → V) :
    (m.upsert k f).get? k' = m.get? k' :=
  getL_upsertL_ne h f m.entries

theorem upsert_upsert (m : IndexMap K V) (k : K) (f g : Option V → V) :
    (m.upsert k f).upsert k g = m.upsert k fun o => g (some (f o)) := by
  have h := upsertL_upsertL k f g m.entries
  simp only [upsert, h]

@[simp] theorem get?_insert_self (m : IndexMap K V) (k : K) (v : V) :
    (m.insert k v).get? k = some v :=
  get?_upsert_self m k _

theorem get?_insert_ne {k k' : K} (h : k' ≠ k) (m : IndexMap K V) (v : V) :
    (m.insert k v).get? k' = m.get? k' :=
  get?_upsert_ne h m _

@[simp] theorem mem_keys_insert {m : IndexMap K V} {k k' : K} {v : V} :
    k' ∈ (m.insert k v).keys ↔ k' = k ∨ k' ∈ m.keys :=
  mem_keys_upsert

theorem entries_foldl_insert : ∀ (l : List (K × V)) (m : IndexMap K V),
    (m.keys ++ l.map Prod.fst).Nodup →
    (l.foldl (fun m x => m.insert x.1 x.2) m).entries = m.entries ++ l
  | [], m, _ => by simp
  | x :: l, m, h => by
    have hx : x.1 ∉ m.keys := fun hk =>
      (List.nodup_append.mp h).2.2 _ hk _ (List.mem_cons_self ..) rfl
    have he : (m.insert x.1 x.2).entries = m.entries ++ [x] := upsertL_of_notMem hx
    have hkeys : (m.insert x.1 x.2).keys = m.keys ++ [x.1] := by
      show (m.insert x.1 x.2).entries.map Prod.fst = _
      rw [he, List.map_append]
      rfl
    rw [List.foldl_cons, entries_foldl_insert l _ (by rw [hkeys]; simpa using h), he]
    simp

theorem mem_of_get?_ofList {l : List (K × V)} {k : K} {v : V} (h : (ofList l).get? k = some v) :
    (k, v) ∈ l := by
  have hall : ∀ k v, (ofList l).get? k = some v → (k, v) ∈ l := by
    refine List.foldlRecOn (motive := fun m : IndexMap K V => ∀ k v, m.get? k = some v → (k, v) ∈ l)
      l _ (fun k v h => absurd h (by simp)) ?_
    intro m hm x hx k v hk
    by_cases hkx : k = x.1
    · subst hkx
      rw [get?_insert_self] at hk
      exact Option.some.inj hk ▸ hx
    · rw [get?_insert_ne hkx] at hk
      exact hm k v hk
  exact hall k v h

/-- Pairs with distinct keys are collected as they are. -/
theorem entries_ofList {l : List (K × V)} (h : (l.map Prod.fst).Nodup) :
    (ofList l).entries = l :=
  entries_foldl_insert l empty (by simpa using h)

/-- Two orders of pairs with distinct keys collect to permuted entries. -/
theorem ofList_perm {l l' : List (K × V)} (h : (l.map Prod.fst).Nodup) (hp : l.Perm l') :
    (ofList l).entries.Perm (ofList l').entries := by
  rw [entries_ofList h, entries_ofList ((hp.map Prod.fst).nodup_iff.mp h)]
  exact hp

theorem get?_modify_self (m : IndexMap K V) (k : K) (f : V → V) :
    (m.modify k f).get? k = (m.get? k).map f := by
  unfold modify
  cases h : m.get? k with
  | none => simpa using h
  | some v => simp

theorem get?_modify_ne {k k' : K} (h : k' ≠ k) (m : IndexMap K V) (f : V → V) :
    (m.modify k f).get? k' = m.get? k' := by
  unfold modify
  cases m.get? k with
  | none => rfl
  | some v => exact get?_insert_ne h m _

@[simp] theorem keys_modify (m : IndexMap K V) (k : K) (f : V → V) :
    (m.modify k f).keys = m.keys := by
  unfold modify
  cases h : m.get? k with
  | none => rfl
  | some v =>
    show (m.upsert k _).keys = m.keys
    rw [keys_upsert, if_pos (mem_keys.mpr ⟨v, h⟩)]

theorem get?_modify (m : IndexMap K V) (k k' : K) (f : V → V) :
    (m.modify k f).get? k' = if k' = k then (m.get? k').map f else m.get? k' := by
  split
  next h => rw [h, get?_modify_self]
  next h => exact get?_modify_ne h m f

theorem keys_erase (m : IndexMap K V) (k : K) : (m.erase k).keys = m.keys.erase k :=
  keys_eraseL k m.entries

theorem keys_erase_filter (m : IndexMap K V) (k : K) :
    (m.erase k).keys = m.keys.filter (· ≠ k) := by
  rw [keys_erase]
  refine (m.nodup.erase_eq_filter k).trans (List.filter_congr fun x _ => ?_)
  rw [Bool.eq_iff_iff, bne_iff_ne, decide_eq_true_iff]

theorem mem_keys_erase {m : IndexMap K V} {k k' : K} :
    k' ∈ (m.erase k).keys ↔ k' ≠ k ∧ k' ∈ m.keys := by
  rw [keys_erase]
  exact m.keys_nodup.mem_erase_iff

theorem get?_erase_self (m : IndexMap K V) (k : K) : (m.erase k).get? k = none :=
  get?_eq_none.mpr fun h => (mem_keys_erase.mp h).1 rfl

theorem get?_erase_ne {k k' : K} (h : k' ≠ k) (m : IndexMap K V) :
    (m.erase k).get? k' = m.get? k' :=
  getL_eraseL_ne h m.entries

theorem get?_foldl_erase (k : K) : ∀ (ks : List K) (m : IndexMap K V),
    (ks.foldl erase m).get? k = if k ∈ ks then none else m.get? k
  | [], _ => rfl
  | a :: ks, m => by
    rw [List.foldl_cons, get?_foldl_erase k ks]
    by_cases hk : k ∈ ks
    · rw [if_pos hk, if_pos (List.mem_cons_of_mem a hk)]
    rw [if_neg hk]
    by_cases ha : k = a
    · subst ha
      rw [if_pos List.mem_cons_self, get?_erase_self]
    · rw [if_neg fun h => (List.mem_cons.mp h).elim ha hk, get?_erase_ne ha]

/-- Change every value, keys and order kept. -/
def mapVal {W : Type} (h : K → V → W) (m : IndexMap K V) : IndexMap K W where
  entries := m.entries.map fun x => (x.1, h x.1 x.2)
  nodup := by
    rw [List.map_map]
    exact m.nodup

@[simp] theorem mapVal_empty {W : Type} (h : K → V → W) :
    (empty : IndexMap K V).mapVal h = empty := rfl

@[simp] theorem keys_mapVal {W : Type} (h : K → V → W) (m : IndexMap K V) :
    (m.mapVal h).keys = m.keys := by
  show (m.entries.map fun x => (x.1, h x.1 x.2)).map Prod.fst = m.keys
  rw [List.map_map]
  rfl

theorem get?_mapVal {W : Type} (h : K → V → W) (m : IndexMap K V) (k : K) :
    (m.mapVal h).get? k = (m.get? k).map (h k) :=
  getL_map h k m.entries

theorem mapVal_upsert {W : Type} {h : K → V → W} {m : IndexMap K V} {k : K}
    {f : Option V → V} {g : Option W → W} (hfg : ∀ o, g (o.map (h k)) = h k (f o)) :
    (m.mapVal h).upsert k g = (m.upsert k f).mapVal h := by
  have he := upsertL_map hfg m.entries
  unfold upsert mapVal
  simpa using he

theorem mapVal_modify {W : Type} {h : K → V → W} {m : IndexMap K V} {k : K} {f : V → V}
    {g : W → W} (hfg : ∀ v, g (h k v) = h k (f v)) :
    (m.mapVal h).modify k g = (m.modify k f).mapVal h := by
  unfold modify
  rw [get?_mapVal]
  cases m.get? k with
  | none => rfl
  | some v => exact mapVal_upsert fun _ => hfg v

end IndexMap

/-- A set iterated in insertion order. -/
structure IndexSet (K : Type) [DecidableEq K] where
  elems : List K
  nodup : elems.Nodup

namespace IndexSet

/-- The empty set. -/
def empty : IndexSet K := ⟨[], List.nodup_nil⟩

/-- Append the element unless it is present. -/
def insert (s : IndexSet K) (k : K) : IndexSet K :=
  if h : k ∈ s.elems then s
  else ⟨s.elems ++ [k], List.nodup_append.mpr ⟨s.nodup, List.pairwise_singleton _ k,
    fun a ha b hb e => h (by rw [List.mem_singleton.mp hb] at e; exact e ▸ ha)⟩⟩

/-- Membership, as the code asks for it. -/
def contains (s : IndexSet K) (k : K) : Bool := decide (k ∈ s.elems)

@[simp] theorem mem_insert {s : IndexSet K} {k k' : K} :
    k' ∈ (s.insert k).elems ↔ k' = k ∨ k' ∈ s.elems := by
  unfold insert
  split
  next h => exact ⟨Or.inr, fun h' => h'.elim (fun e => e ▸ h) id⟩
  next => simp [or_comm]

@[simp] theorem elems_empty : (empty : IndexSet K).elems = [] := rfl

theorem elems_insert_new {s : IndexSet K} {k : K} (h : k ∉ s.elems) :
    (s.insert k).elems = s.elems ++ [k] := by
  unfold insert
  rw [dif_neg h]

end IndexSet

end Systeml.Lib
