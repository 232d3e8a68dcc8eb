/-!
# Computations that may fail

What a successful `Except` computation went through: the parts of a bind, of a map and of
a fold.
-/

namespace Systeml.Lib

variable {α β ε : Type}

theorem bind_ok {x : Except ε α} {f : α → Except ε β} {b : β} :
    (x >>= f) = .ok b ↔ ∃ a, x = .ok a ∧ f a = .ok b := by
  cases x <;> simp [bind, Except.bind]

theorem map_eq_ok {f : α → β} {x : Except ε α} {b : β} (h : x.map f = .ok b) :
    ∃ a, x = .ok a ∧ b = f a := by
  cases x with
  | error e => exact absurd h (by simp [Except.map])
  | ok a => exact ⟨a, rfl, (Except.ok.inj h).symm⟩

/-- A fold succeeds if each of its steps does, from wherever. -/
theorem foldlM_ok {f : β → α → Except ε β} :
    ∀ {l : List α}, (∀ x ∈ l, ∀ b, ∃ r, f b x = .ok r) → ∀ b, ∃ r, l.foldlM f b = .ok r
  | [], _, b => ⟨b, rfl⟩
  | x :: l, h, b => by
    obtain ⟨b', hb'⟩ := h x (List.mem_cons_self ..) b
    obtain ⟨r, hr⟩ := foldlM_ok (fun y hy => h y (List.mem_cons_of_mem x hy)) b'
    exact ⟨r, by rw [List.foldlM_cons, hb']; exact hr⟩

/-- Each element of a fold that succeeds was a step that did. -/
theorem ok_of_foldlM {f : β → α → Except ε β} {x : α} :
    ∀ {l : List α} {b r : β}, l.foldlM f b = .ok r → x ∈ l → ∃ b' r', f b' x = .ok r'
  | y :: l, b, r, h, hx => by
    rw [List.foldlM_cons] at h
    obtain ⟨b', hb', hrest⟩ := bind_ok.mp h
    rcases List.mem_cons.mp hx with rfl | hx
    · exact ⟨b, b', hb'⟩
    · exact ok_of_foldlM hrest hx

end Systeml.Lib
