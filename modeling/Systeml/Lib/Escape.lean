/-!
# Escaped text

Some symbols are written as they are, the others as an escape symbol and two more. Where
the escape symbol is one of those written as they are, a text can spell an escape sequence
itself, and then two texts have one escaped form. `encode_eq_iff` says when: if they are the
same once each sequence a text spells is read as the symbol that it stands for.
-/

namespace Systeml.Lib

/-- How symbols are escaped: `safe` ones are not, and the escape symbol is one of them. -/
structure Escaping (α : Type) where
  safe : α → Bool
  esc : α
  /-- The two symbols behind the escape symbol. -/
  code : α → α × α
  decode : α → α → Option α
  safe_esc : safe esc = true
  decode_code : ∀ {a}, safe a = false → decode (code a).1 (code a).2 = some a
  of_decode : ∀ {x y a}, decode x y = some a → safe a = false ∧ code a = (x, y)
  plain_fst : ∀ a, safe (code a).1 = true ∧ (code a).1 ≠ esc
  plain_snd : ∀ a, safe (code a).2 = true ∧ (code a).2 ≠ esc

namespace Escaping

variable {α : Type} (E : Escaping α)

/-- The escaped form of one symbol. -/
def one (a : α) : List α := if E.safe a then [a] else [E.esc, (E.code a).1, (E.code a).2]

/-- The escaped form of a text. -/
def encode (s : List α) : List α := s.flatMap E.one

/-- Read the escape sequences, from left to right. What is none stays as it is. -/
def unescape [DecidableEq α] : List α → List α
  | c :: x :: y :: rest =>
    if c = E.esc then
      match E.decode x y with
      | some a => a :: unescape rest
      | none => c :: unescape (x :: y :: rest)
    else c :: unescape (x :: y :: rest)
  | c :: rest => c :: unescape rest
  | [] => []

theorem one_of_safe {a : α} (h : E.safe a = true) : E.one a = [a] := if_pos h

theorem one_of_unsafe {a : α} (h : E.safe a = false) :
    E.one a = [E.esc, (E.code a).1, (E.code a).2] := by
  unfold one
  rw [h]
  rfl

theorem encode_cons (a : α) (s : List α) : E.encode (a :: s) = E.one a ++ E.encode s :=
  List.flatMap_cons

theorem encode_cons_safe {a : α} (h : E.safe a = true) (s : List α) :
    E.encode (a :: s) = a :: E.encode s := by
  rw [encode_cons, E.one_of_safe h]
  rfl

theorem encode_cons_unsafe {a : α} (h : E.safe a = false) (s : List α) :
    E.encode (a :: s) = E.esc :: (E.code a).1 :: (E.code a).2 :: E.encode s := by
  rw [encode_cons, E.one_of_unsafe h]
  rfl

/-- A text whose escaped form begins with a plain symbol begins with that symbol. -/
theorem encode_eq_cons {s l : List α} {x : α} (hx : x ≠ E.esc) (h : E.encode s = x :: l) :
    ∃ rest, s = x :: rest ∧ E.encode rest = l := by
  cases s with
  | nil => exact absurd h (by simp [encode])
  | cons a rest =>
    cases ha : E.safe a with
    | true =>
      rw [E.encode_cons_safe ha] at h
      obtain ⟨rfl, hl⟩ := List.cons.inj h
      exact ⟨rest, rfl, hl⟩
    | false =>
      rw [E.encode_cons_unsafe ha] at h
      exact absurd (List.cons.inj h).1.symm hx

/-- What a sequence says about its symbol and its two others. -/
theorem plain_of_decode {x y a : α} (h : E.decode x y = some a) :
    E.safe a = false ∧ E.code a = (x, y) ∧ (E.safe x = true ∧ x ≠ E.esc) ∧
      E.safe y = true ∧ y ≠ E.esc := by
  obtain ⟨hescaped, hcode⟩ := E.of_decode h
  have hx := E.plain_fst a
  have hy := E.plain_snd a
  rw [hcode] at hx hy
  exact ⟨hescaped, hcode, hx, hy⟩

/-- The text begins with an escape sequence. -/
def Spells (s : List α) : Prop := ∃ x y a rest, s = E.esc :: x :: y :: rest ∧ E.decode x y = some a

/-- The text in pieces: nothing, a sequence, or a symbol that begins none. -/
theorem unescape_induction {P : List α → Prop} (nil : P [])
    (seq : ∀ x y a rest, E.decode x y = some a → P rest → P (E.esc :: x :: y :: rest))
    (cons : ∀ c rest, ¬ E.Spells (c :: rest) → P rest → P (c :: rest)) : ∀ s, P s := by
  -- on the length, since a sequence takes three symbols at once
  intro s
  induction hn : s.length using Nat.strongRecOn generalizing s with
  | ind n ih =>
    cases s with
    | nil => exact nil
    | cons c rest =>
      by_cases hs : E.Spells (c :: rest)
      · obtain ⟨x, y, a, l, he, ha⟩ := hs
        rw [he]
        refine seq x y a l ha (ih l.length ?_ l rfl)
        rw [← hn, he]
        simp only [List.length_cons]
        omega
      · refine cons c rest hs (ih rest.length ?_ rest rfl)
        rw [← hn]
        exact Nat.lt_succ_self _

variable [DecidableEq α]

theorem unescape_spells {x y a : α} (h : E.decode x y = some a) (rest : List α) :
    E.unescape (E.esc :: x :: y :: rest) = a :: E.unescape rest := by
  rw [unescape, if_pos rfl, h]

theorem unescape_cons {c : α} {rest : List α} (h : ¬ E.Spells (c :: rest)) :
    E.unescape (c :: rest) = c :: E.unescape rest := by
  match rest with
  | [] => rfl
  | [x] => rfl
  | x :: y :: rest =>
    rw [unescape]
    split
    next hc =>
      subst hc
      split
      next a ha => exact absurd ⟨x, y, a, rest, rfl, ha⟩ h
      next => rfl
    next => rfl

/-- Reading the sequences a text spells does not change its escaped form. -/
theorem encode_unescape (s : List α) : E.encode (E.unescape s) = E.encode s := by
  induction s using E.unescape_induction with
  | nil => rfl
  | seq x y a rest ha ih =>
    obtain ⟨hescaped, hcode, hx, hy⟩ := E.plain_of_decode ha
    rw [E.unescape_spells ha, E.encode_cons_unsafe hescaped, hcode, ih,
      E.encode_cons_safe E.safe_esc, E.encode_cons_safe hx.1, E.encode_cons_safe hy.1]
  | cons c rest hs ih => rw [E.unescape_cons hs, encode_cons, ih, ← encode_cons]

/-- Escaping spells the sequences that the text spelled, and those of its unsafe
symbols. -/
theorem unescape_encode (s : List α) : E.unescape (E.encode s) = E.unescape s := by
  induction s using E.unescape_induction with
  | nil => rfl
  | seq x y a rest ha ih =>
    obtain ⟨-, -, hx, hy⟩ := E.plain_of_decode ha
    rw [E.encode_cons_safe E.safe_esc, E.encode_cons_safe hx.1, E.encode_cons_safe hy.1,
      E.unescape_spells ha, E.unescape_spells ha, ih]
  | cons c rest hs ih =>
    cases hc : E.safe c with
    | false =>
      rw [E.encode_cons_unsafe hc, E.unescape_spells (E.decode_code hc), E.unescape_cons hs, ih]
    | true =>
      rw [E.encode_cons_safe hc, E.unescape_cons hs, E.unescape_cons, ih]
      -- a sequence in the escaped form would be one in the text
      intro hspells
      obtain ⟨x, y, a, l, he, ha⟩ := hspells
      obtain ⟨-, -, hx, hy⟩ := E.plain_of_decode ha
      obtain ⟨rfl, htail⟩ := List.cons.inj he
      obtain ⟨r, rfl, hrest⟩ := E.encode_eq_cons hx.2 htail
      obtain ⟨r', rfl, -⟩ := E.encode_eq_cons hy.2 hrest
      exact hs ⟨x, y, a, r', rfl, ha⟩

/-- **Two texts have one escaped form** exactly if reading the sequences that they spell
makes them the same. -/
theorem encode_eq_iff {s t : List α} :
    E.encode s = E.encode t ↔ E.unescape s = E.unescape t := by
  constructor
  · intro h
    rw [← E.unescape_encode s, h, E.unescape_encode]
  · intro h
    rw [← E.encode_unescape s, h, E.encode_unescape]

end Escaping

end Systeml.Lib
