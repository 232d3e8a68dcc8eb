import Mathlib.Data.List.Nodup
import Mathlib.Data.List.Perm.Subperm
import Mathlib.Data.Fintype.EquivFin
import Mathlib.Order.WellFounded
import Mathlib.Logic.Relation

/-!
# Kahn's algorithm

Topological sorting of a duplicate-free list of nodes, given for each node the
list of nodes that must precede it. The loop keeps the number of predecessors
not yet output (`indeg`), a queue of the nodes with none left (`ready`) and the
output; `KInv` says exactly that, and it is all the results need:

- `kahn_sorted`: the output has no duplicates and every node in it comes after
  all its predecessors;
- `kahn_notMem_out`: a node is left out exactly when it is on a cycle of the
  precedence relation or downstream of one;
- `kahn_complete_iff`: the output holds every node exactly when the precedence
  relation has no cycle.
-/

namespace Systeml.Lib

variable {α : Type} [DecidableEq α]

/-- Loop state: predecessors left for each node, nodes with none, output. -/
structure KState (α : Type) where
  indeg : α → Nat
  ready : List α
  out : List α

/-- The nodes that have `p` among their predecessors, in node order. -/
def succsOf (nodes : List α) (preds : α → List α) (p : α) : List α :=
  nodes.filter fun n => decide (p ∈ preds n)

theorem mem_succsOf {nodes : List α} {preds : α → List α} {p n : α} :
    n ∈ succsOf nodes preds p ↔ n ∈ nodes ∧ p ∈ preds n := by
  simp [succsOf]

/-- One predecessor of `s` is done; queue `s` if it was the last. -/
def relax (st : (α → Nat) × List α) (s : α) : (α → Nat) × List α :=
  let d := st.1 s - 1
  (fun n => if n = s then d else st.1 n, if d = 0 then st.2 ++ [s] else st.2)

/-- Output the head of the queue and relax its successors. -/
def kahnStep (nodes : List α) (preds : α → List α) (st : KState α) : KState α :=
  match st.ready with
  | [] => st
  | u :: rest =>
    let r := (succsOf nodes preds u).foldl relax (st.indeg, rest)
    ⟨r.1, r.2, st.out ++ [u]⟩

/-- At most `fuel` rounds of the loop. -/
def kahnLoop (nodes : List α) (preds : α → List α) : Nat → KState α → KState α
  | 0, st => st
  | fuel + 1, st => kahnLoop nodes preds fuel (kahnStep nodes preds st)

/-- All predecessors left, the nodes without any queued, nothing output. -/
def kahnInit (nodes : List α) (preds : α → List α) : KState α :=
  ⟨fun n => (preds n).length, nodes.filter fun n => (preds n).length == 0, []⟩

/-- The final state; one round for each node suffices (`kahn_ready_nil`). -/
def kahn (nodes : List α) (preds : α → List α) : KState α :=
  kahnLoop nodes preds nodes.length (kahnInit nodes preds)

/-! ## The fold over the successors -/

/-- Relaxing a duplicate-free list takes one off each of its members and queues
those that reach zero, in list order. -/
theorem foldl_relax : ∀ (l : List α) (d : α → Nat) (q : List α), l.Nodup →
    (∀ n, (l.foldl relax (d, q)).1 n = if n ∈ l then d n - 1 else d n) ∧
    (l.foldl relax (d, q)).2 = q ++ l.filter fun s => decide (d s - 1 = 0)
  | [], d, q, _ => by simp
  | s :: l, d, q, hn => by
    obtain ⟨hs, hl⟩ := List.nodup_cons.mp hn
    obtain ⟨ih1, ih2⟩ := foldl_relax l (fun n => if n = s then d s - 1 else d n)
      (if d s - 1 = 0 then q ++ [s] else q) hl
    have hunf : (s :: l).foldl relax (d, q) = l.foldl relax
        ((fun n => if n = s then d s - 1 else d n), if d s - 1 = 0 then q ++ [s] else q) := rfl
    rw [hunf]
    constructor
    · intro n
      rw [ih1]
      by_cases hns : n = s
      · subst hns
        simp [hs]
      · simp [hns]
    · rw [ih2]
      have hfil : (l.filter fun t => decide ((if t = s then d s - 1 else d t) - 1 = 0)) =
          l.filter fun t => decide (d t - 1 = 0) := by
        refine List.filter_congr fun t ht => ?_
        rw [if_neg (fun e : t = s => hs (e ▸ ht))]
      rw [hfil]
      by_cases hd : d s - 1 = 0
      · simp [hd]
      · simp [hd]

/-- Outputting a fresh node takes one off the count of every list it is in. -/
theorem countP_snoc {out : List α} {u : α} (hu : u ∉ out) : ∀ (l : List α), l.Nodup →
    l.countP (fun p => decide (p ∉ out ++ [u])) =
      l.countP (fun p => decide (p ∉ out)) - (if u ∈ l then 1 else 0) ∧
    (u ∈ l → 0 < l.countP fun p => decide (p ∉ out))
  | [], _ => by simp
  | x :: l, hn => by
    obtain ⟨hx, hl⟩ := List.nodup_cons.mp hn
    obtain ⟨ih, ihpos⟩ := countP_snoc hu l hl
    rw [List.countP_cons, List.countP_cons, ih]
    by_cases hxu : x = u
    · subst hxu
      simp [hx, hu]
    · have hux : ¬ u = x := fun e => hxu e.symm
      have hx' : (x ∉ out ++ [u]) ↔ x ∉ out := by simp [hxu]
      simp only [hx', List.mem_cons, hux, false_or]
      by_cases hul : u ∈ l
      · have := ihpos hul
        rw [if_pos hul]
        exact ⟨by omega, fun _ => by omega⟩
      · rw [if_neg hul]
        exact ⟨by omega, fun h => absurd h hul⟩

/-! ## The invariant -/

section

variable {nodes : List α} {preds : α → List α}

/-- What holds before and after every round. -/
structure KInv (nodes : List α) (preds : α → List α) (st : KState α) : Prop where
  nodup : (st.out ++ st.ready).Nodup
  sub : ∀ n ∈ st.out ++ st.ready, n ∈ nodes
  left : ∀ n ∈ nodes, st.indeg n = (preds n).countP fun p => decide (p ∉ st.out)
  zero : ∀ n ∈ nodes, st.indeg n = 0 → n ∈ st.out ++ st.ready
  queued : ∀ n ∈ st.out ++ st.ready, st.indeg n = 0
  sorted : ∀ l n r, st.out = l ++ n :: r → ∀ p ∈ preds n, p ∈ l

theorem kahnInit_inv (hn : nodes.Nodup) : KInv nodes preds (kahnInit nodes preds) where
  nodup := by
    show (nodes.filter _).Nodup
    exact hn.filter _
  sub := fun n h => List.mem_of_mem_filter (p := fun n => (preds n).length == 0) h
  left := fun n _ => by simp [kahnInit]
  zero := fun n hm hz => by
    show n ∈ nodes.filter _
    exact List.mem_filter.mpr ⟨hm, by simpa [kahnInit] using hz⟩
  queued := fun n h => by
    have := (List.mem_filter.mp (show n ∈ nodes.filter _ from h)).2
    simpa [kahnInit] using this
  sorted := fun l n r h => by simp [kahnInit] at h

/-- A node without predecessors left has them all output. -/
theorem preds_out_of_zero {out : List α} {n : α}
    (h : (preds n).countP (fun p => decide (p ∉ out)) = 0) : ∀ p ∈ preds n, p ∈ out := by
  intro p hp
  have := List.countP_eq_zero.mp h p hp
  simpa using this

/-- One round keeps the invariant. -/
theorem kahnStep_inv (hn : nodes.Nodup) (hp : ∀ n, (preds n).Nodup) {st : KState α}
    (h : KInv nodes preds st) : KInv nodes preds (kahnStep nodes preds st) := by
  unfold kahnStep
  split
  next => exact h
  next u rest hr =>
    have hnd : (st.out ++ u :: rest).Nodup := by
      have := h.nodup
      rwa [hr] at this
    obtain ⟨hout, hcons, hdis⟩ := List.nodup_append.mp hnd
    obtain ⟨hurest, hrest⟩ := List.nodup_cons.mp hcons
    have huout : u ∉ st.out := fun hm => hdis u hm u (List.mem_cons_self ..) rfl
    have hun : u ∈ nodes := h.sub u (by rw [hr]; simp)
    have hsucc : (succsOf nodes preds u).Nodup := hn.filter _
    obtain ⟨hd, hq⟩ := foldl_relax _ st.indeg rest hsucc
    -- The new count of a node is the number of its predecessors still missing.
    have hleft : ∀ n ∈ nodes, ((succsOf nodes preds u).foldl relax (st.indeg, rest)).1 n =
        (preds n).countP fun p => decide (p ∉ st.out ++ [u]) := by
      intro n hnn
      rw [hd, (countP_snoc huout _ (hp n)).1, ← h.left n hnn]
      by_cases hun' : u ∈ preds n
      · rw [if_pos hun', if_pos (mem_succsOf.mpr ⟨hnn, hun'⟩)]
      · rw [if_neg hun', if_neg (fun hm => hun' (mem_succsOf.mp hm).2)]
        rfl
    -- A successor of `u` has not been queued before: it was waiting for `u`.
    have hnew : ∀ s ∈ succsOf nodes preds u, s ∈ nodes ∧ 0 < st.indeg s ∧
        s ∉ st.out ++ st.ready := by
      intro s hs
      obtain ⟨hsn, hus⟩ := mem_succsOf.mp hs
      have hpos := (countP_snoc huout _ (hp s)).2 hus
      rw [← h.left s hsn] at hpos
      exact ⟨hsn, hpos, fun hm => by have := h.queued s hm; omega⟩
    generalize (succsOf nodes preds u).foldl relax (st.indeg, rest) = r at hd hq hleft ⊢
    obtain ⟨d', q'⟩ := r
    simp only at hd hq hleft ⊢
    subst hq
    refine ⟨?_, ?_, hleft, ?_, ?_, ?_⟩
    · have hpre : (st.out ++ [u] ++ rest).Nodup := by
        rw [List.append_assoc]
        exact hnd
      rw [← List.append_assoc]
      refine List.nodup_append.mpr ⟨hpre, hsucc.filter _, fun a ha b hb e => ?_⟩
      have hbnew := (hnew b (List.mem_of_mem_filter hb)).2.2
      refine hbnew ?_
      rw [← e, hr]
      rw [List.append_assoc] at ha
      exact ha
    · intro n hm
      simp only [List.mem_append, List.mem_singleton] at hm
      rcases hm with (hm | rfl) | hm | hm
      · exact h.sub n (List.mem_append_left _ hm)
      · exact hun
      · exact h.sub n (by rw [hr]; simp [hm])
      · exact (hnew n (List.mem_of_mem_filter hm)).1
    · intro n hnn hz
      simp only at hz ⊢
      rw [hd] at hz
      by_cases hs : n ∈ succsOf nodes preds u
      · rw [if_pos hs] at hz
        refine List.mem_append_right _ (List.mem_append_right _ ?_)
        exact List.mem_filter.mpr ⟨hs, by simpa using hz⟩
      · rw [if_neg hs] at hz
        have hm := h.zero n hnn hz
        rw [hr] at hm
        simp only [List.mem_append, List.mem_cons] at hm ⊢
        tauto
    · intro n hm
      simp only at hm ⊢
      rw [hd]
      by_cases hs : n ∈ succsOf nodes preds u
      · rw [if_pos hs]
        have hnq := (hnew n hs).2.2
        rw [hr] at hnq
        simp only [List.mem_append, List.mem_cons, not_or, List.not_mem_nil, or_false] at hm hnq
        rcases hm with (hm | hm) | hm | hm
        · exact absurd hm hnq.1
        · exact absurd hm hnq.2.1
        · exact absurd hm hnq.2.2
        · simpa using (List.mem_filter.mp hm).2
      · rw [if_neg hs]
        refine h.queued n ?_
        rw [hr]
        simp only [List.mem_append, List.mem_cons, List.not_mem_nil, or_false] at hm ⊢
        rcases hm with (hm | hm) | hm | hm
        · exact Or.inl hm
        · exact Or.inr (Or.inl hm)
        · exact Or.inr (Or.inr hm)
        · exact absurd (List.mem_of_mem_filter hm) hs
    · intro l n r he p hpn
      show p ∈ l
      rcases List.eq_nil_or_concat r with rfl | ⟨r', x, rfl⟩
      · -- `n` is the node just output, so all its predecessors already are
        obtain ⟨rfl, rfl⟩ : st.out = l ∧ u = n := by
          have := List.append_inj' he rfl
          exact ⟨this.1, by simpa using this.2⟩
        refine preds_out_of_zero ?_ p hpn
        rw [← h.left u hun]
        exact h.queued u (by rw [hr]; simp)
      · have he' : st.out ++ [u] = (l ++ n :: r') ++ [x] := by simpa using he
        exact h.sorted l n r' (List.append_inj' he' rfl).1 p hpn

theorem kahnLoop_inv (hn : nodes.Nodup) (hp : ∀ n, (preds n).Nodup) :
    ∀ (fuel : Nat) {st : KState α}, KInv nodes preds st →
      KInv nodes preds (kahnLoop nodes preds fuel st)
  | 0, _, h => h
  | fuel + 1, _, h => kahnLoop_inv hn hp fuel (kahnStep_inv hn hp h)

theorem kahn_inv (hn : nodes.Nodup) (hp : ∀ n, (preds n).Nodup) :
    KInv nodes preds (kahn nodes preds) :=
  kahnLoop_inv hn hp _ (kahnInit_inv hn)

/-- A round with a queued node outputs one node. -/
theorem kahnLoop_progress : ∀ (fuel : Nat) (st : KState α),
    (kahnLoop nodes preds fuel st).ready = [] ∨
      (kahnLoop nodes preds fuel st).out.length = st.out.length + fuel
  | 0, st => Or.inr rfl
  | fuel + 1, st => by
    unfold kahnLoop
    cases hr : st.ready with
    | nil =>
      have hstep : kahnStep nodes preds st = st := by rw [kahnStep, hr]
      rw [hstep]
      rcases kahnLoop_progress fuel st with h | h
      · exact Or.inl h
      · -- an empty queue stays empty
        have hid : ∀ k, kahnLoop nodes preds k st = st := by
          intro k
          induction k with
          | zero => rfl
          | succ k ih => rw [kahnLoop, hstep, ih]
        rw [hid]
        exact Or.inl hr
    | cons u rest =>
      rcases kahnLoop_progress fuel (kahnStep nodes preds st) with h | h
      · exact Or.inl h
      · have hlen : (kahnStep nodes preds st).out.length = st.out.length + 1 := by
          rw [kahnStep, hr]
          simp
        exact Or.inr (by rw [h, hlen]; omega)

/-- One round for each node empties the queue. -/
theorem kahn_ready_nil (hn : nodes.Nodup) (hp : ∀ n, (preds n).Nodup) :
    (kahn nodes preds).ready = [] := by
  have hinv := kahn_inv hn hp
  rcases kahnLoop_progress nodes.length (kahnInit nodes preds) with h | h
  · exact h
  · have hlen : (kahn nodes preds).out.length = nodes.length := by
      rw [kahn, h]
      simp [kahnInit]
    have hle := (List.subperm_of_subset hinv.nodup hinv.sub).length_le
    rw [List.length_append, hlen] at hle
    exact List.eq_nil_of_length_eq_zero (by omega)

/-! ## Results -/

/-- `p` must precede `n`. -/
def Precedes (nodes : List α) (preds : α → List α) (p n : α) : Prop :=
  n ∈ nodes ∧ p ∈ preds n

/-- The output is duplicate-free, made of nodes, and each node in it comes
after all its predecessors. -/
theorem kahn_sorted (hn : nodes.Nodup) (hp : ∀ n, (preds n).Nodup) :
    (kahn nodes preds).out.Nodup ∧ (∀ n ∈ (kahn nodes preds).out, n ∈ nodes) ∧
      ∀ l n r, (kahn nodes preds).out = l ++ n :: r → ∀ p ∈ preds n, p ∈ l := by
  have h := kahn_inv hn hp
  exact ⟨(List.nodup_append.mp h.nodup).1, fun n hm => h.sub n (List.mem_append_left _ hm),
    h.sorted⟩

/-- When it outputs as many nodes as there are, it outputs a permutation. -/
theorem kahn_perm (hn : nodes.Nodup) (hp : ∀ n, (preds n).Nodup)
    (hl : (kahn nodes preds).out.length = nodes.length) : (kahn nodes preds).out.Perm nodes := by
  obtain ⟨hnd, hsub, -⟩ := kahn_sorted hn hp
  exact (List.subperm_of_subset hnd hsub).perm_of_length_le (by omega)

/-- A node is left out exactly when one of its predecessors is. -/
theorem kahn_mem_out (hn : nodes.Nodup) (hp : ∀ n, (preds n).Nodup) {n : α} (hm : n ∈ nodes) :
    n ∈ (kahn nodes preds).out ↔ ∀ p ∈ preds n, p ∈ (kahn nodes preds).out := by
  have h := kahn_inv hn hp
  have hr := kahn_ready_nil hn hp
  have hz := h.left n hm
  constructor
  · intro ho
    have h0 := h.queued n (List.mem_append_left _ ho)
    exact preds_out_of_zero (by rw [← hz]; exact h0)
  · intro ha
    have h0 : (kahn nodes preds).indeg n = 0 := by
      rw [hz, List.countP_eq_zero]
      intro p hpn
      simpa using ha p hpn
    have := h.zero n hm h0
    rwa [hr, List.append_nil] at this

/-- An output node comes after its predecessors. -/
theorem idxOf_lt_of_precedes (hn : nodes.Nodup) (hp : ∀ n, (preds n).Nodup) {p n : α}
    (hmem : n ∈ (kahn nodes preds).out) (h : Precedes nodes preds p n) :
    (kahn nodes preds).out.idxOf p < (kahn nodes preds).out.idxOf n := by
  obtain ⟨l, r, he, hnl⟩ := List.eq_append_cons_of_mem hmem
  have hpl := (kahn_sorted hn hp).2.2 l n r he p h.2
  rw [he, List.idxOf_append_of_mem hpl, List.idxOf_append_of_notMem hnl,
    List.idxOf_cons_self]
  have := List.idxOf_lt_length_of_mem hpl
  omega

/-- What leads to an output node is output, and before it. -/
theorem out_of_transGen (hn : nodes.Nodup) (hp : ∀ n, (preds n).Nodup) {a b : α}
    (hab : Relation.TransGen (Precedes nodes preds) a b) (hb : b ∈ (kahn nodes preds).out) :
    a ∈ (kahn nodes preds).out ∧
      (kahn nodes preds).out.idxOf a < (kahn nodes preds).out.idxOf b := by
  induction hab with
  | single h => exact ⟨(kahn_mem_out hn hp h.1).mp hb _ h.2, idxOf_lt_of_precedes hn hp hb h⟩
  | tail _ h ih =>
    obtain ⟨ha, hlt⟩ := ih ((kahn_mem_out hn hp h.1).mp hb _ h.2)
    exact ⟨ha, Nat.lt_trans hlt (idxOf_lt_of_precedes hn hp hb h)⟩

/-- `n` is on a cycle: a chain of precedences leads from it back to it. -/
def OnCycle (nodes : List α) (preds : α → List α) (n : α) : Prop :=
  Relation.TransGen (Precedes nodes preds) n n

/-- `n` is on a cycle, or a chain of precedences leads to it from one. -/
def Downstream (nodes : List α) (preds : α → List α) (n : α) : Prop :=
  ∃ c, OnCycle nodes preds c ∧ Relation.ReflTransGen (Precedes nodes preds) c n

/-- **What is left out.** A node is not output exactly when it is on a cycle or
downstream of one. -/
theorem kahn_notMem_out (hn : nodes.Nodup) (hp : ∀ n, (preds n).Nodup)
    (hsub : ∀ n, ∀ p ∈ preds n, p ∈ nodes) {n : α} (hm : n ∈ nodes) :
    n ∉ (kahn nodes preds).out ↔ Downstream nodes preds n := by
  constructor
  · intro hout
    by_contra hno
    -- the nodes above `n` have no cycle among them, so they are output in turn
    have hwf : WellFounded fun a b :
        {m // m ∈ nodes ∧ Relation.ReflTransGen (Precedes nodes preds) m n} =>
        Relation.TransGen (Precedes nodes preds) a.1 b.1 := by
      have : Finite {m // m ∈ nodes ∧ Relation.ReflTransGen (Precedes nodes preds) m n} :=
        Finite.of_injective (fun m => (⟨m.1, m.2.1⟩ : {m // m ∈ nodes}))
          fun a b h => Subtype.ext (Subtype.mk.inj h)
      have : IsTrans {m // m ∈ nodes ∧ Relation.ReflTransGen (Precedes nodes preds) m n}
          fun a b => Relation.TransGen (Precedes nodes preds) a.1 b.1 :=
        ⟨fun _ _ _ h1 h2 => h1.trans h2⟩
      have : Std.Irrefl fun a b :
          {m // m ∈ nodes ∧ Relation.ReflTransGen (Precedes nodes preds) m n} =>
          Relation.TransGen (Precedes nodes preds) a.1 b.1 :=
        ⟨fun a h => hno ⟨a.1, h, a.2.2⟩⟩
      exact Finite.wellFounded_of_trans_of_irrefl _
    have hall : ∀ m : {m // m ∈ nodes ∧ Relation.ReflTransGen (Precedes nodes preds) m n},
        m.1 ∈ (kahn nodes preds).out := by
      intro m
      induction m using hwf.induction with
      | _ m ih =>
        refine (kahn_mem_out hn hp m.2.1).mpr fun p hpm => ?_
        have hstep : Precedes nodes preds p m.1 := ⟨m.2.1, hpm⟩
        exact ih ⟨p, hsub m.1 p hpm, Relation.ReflTransGen.head hstep m.2.2⟩ (.single hstep)
    exact hout (hall ⟨n, hm, .refl⟩)
  · rintro ⟨c, hc, hcn⟩ hout
    have hcout : c ∈ (kahn nodes preds).out := by
      rcases Relation.reflTransGen_iff_eq_or_transGen.mp hcn with rfl | h
      · exact hout
      · exact (out_of_transGen hn hp h hout).1
    exact Nat.lt_irrefl _ (out_of_transGen hn hp hc hcout).2

/-- A node still waits for a predecessor exactly when it is not output. -/
theorem kahn_indeg_pos (hn : nodes.Nodup) (hp : ∀ n, (preds n).Nodup) {n : α} (hm : n ∈ nodes) :
    0 < (kahn nodes preds).indeg n ↔ n ∉ (kahn nodes preds).out := by
  have h := kahn_inv hn hp
  have hr := kahn_ready_nil hn hp
  constructor
  · intro hpos hout
    have := h.queued n (List.mem_append_left _ hout)
    omega
  · intro hout
    by_contra hz
    have hin := h.zero n hm (by omega)
    rw [hr, List.append_nil] at hin
    exact hout hin

/-- It outputs as many nodes as there are exactly when it outputs each. -/
theorem kahn_length_iff (hn : nodes.Nodup) (hp : ∀ n, (preds n).Nodup) :
    (kahn nodes preds).out.length = nodes.length ↔ ∀ n ∈ nodes, n ∈ (kahn nodes preds).out := by
  constructor
  · intro hl n hm
    exact (kahn_perm hn hp hl).mem_iff.mpr hm
  · intro hall
    obtain ⟨hnd, hs, -⟩ := kahn_sorted hn hp
    have h1 := (List.subperm_of_subset hnd hs).length_le
    have h2 := (List.subperm_of_subset hn hall).length_le
    omega

/-- **Completeness.** All nodes are output exactly when no chain of
precedences leads from a node back to itself. -/
theorem kahn_complete_iff (hn : nodes.Nodup) (hp : ∀ n, (preds n).Nodup)
    (hsub : ∀ n, ∀ p ∈ preds n, p ∈ nodes) :
    (kahn nodes preds).out.length = nodes.length ↔
      ∀ n, ¬ Relation.TransGen (Precedes nodes preds) n n := by
  rw [kahn_length_iff hn hp]
  constructor
  · intro hall n hc
    obtain ⟨m, -, hmn⟩ := Relation.TransGen.tail'_iff.mp hc
    exact (kahn_notMem_out hn hp hsub hmn.1).mpr ⟨n, hc, .refl⟩ (hall n hmn.1)
  · intro hac n hm
    by_contra hout
    obtain ⟨c, hc, -⟩ := (kahn_notMem_out hn hp hsub hm).mp hout
    exact hac c hc

end

end Systeml.Lib
