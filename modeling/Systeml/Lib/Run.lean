import Mathlib.Data.List.Basic

/-!
# Runs of a labelled step function

`step s l` is the state after the step that `l` describes, if it can be taken in
`s`. A run is a list of labels. `runs_inv` is the induction every invariant of a
run goes through, with a condition on the steps (`Along`) where the invariant
needs one; `Along.append` gives it back in the middle of the run.
-/

namespace Systeml.Lib

variable {σ α : Type} {f : σ → α → Option σ}

/-- The state after the steps of a run. -/
def runs (step : σ → α → Option σ) : σ → List α → Option σ
  | s, [] => some s
  | s, l :: ls => (step s l).bind fun s' => runs step s' ls

@[simp] theorem runs_nil (s : σ) : runs f s [] = some s := rfl

theorem runs_cons {s t : σ} {l : α} {ls : List α} :
    runs f s (l :: ls) = some t ↔ ∃ s', f s l = some s' ∧ runs f s' ls = some t :=
  Option.bind_eq_some_iff

theorem runs_append {t : σ} {ls' : List α} : ∀ {ls : List α} {s : σ},
    runs f s (ls ++ ls') = some t ↔ ∃ s', runs f s ls = some s' ∧ runs f s' ls' = some t
  | [], s => by simp
  | l :: ls, s => by
    rw [List.cons_append, runs_cons]
    constructor
    · rintro ⟨s₁, h₁, h⟩
      obtain ⟨s₂, h₂, h⟩ := runs_append.mp h
      exact ⟨s₂, runs_cons.mpr ⟨s₁, h₁, h₂⟩, h⟩
    · rintro ⟨s₂, h₂, h⟩
      obtain ⟨s₁, h₁, h₂⟩ := runs_cons.mp h₂
      exact ⟨s₁, h₁, runs_append.mpr ⟨s₂, h₂, h⟩⟩

/-- Every step of the run meets `ok`, a condition on the state before it and its
label. -/
def Along (step : σ → α → Option σ) (ok : σ → α → Prop) : σ → List α → Prop
  | _, [] => True
  | s, l :: ls => ok s l ∧ ∀ s', step s l = some s' → Along step ok s' ls

theorem Along.cons {A : σ → α → Prop} {s s' : σ} {l : α} {ls : List α} (h : A s l)
    (hs : f s l = some s') (hrest : Along f A s' ls) : Along f A s (l :: ls) :=
  ⟨h, fun _ hs' => Option.some.inj (hs.symm.trans hs') ▸ hrest⟩

theorem Along.imp {A A' : σ → α → Prop} (himp : ∀ s l, A s l → A' s l) :
    ∀ {ls : List α} {s : σ}, Along f A s ls → Along f A' s ls
  | [], _, _ => trivial
  | _ :: _, _, h => ⟨himp _ _ h.1, fun s' hs => (h.2 s' hs).imp himp⟩

theorem Along.of_labels {p : α → Prop} : ∀ {ls : List α} {s : σ}, (∀ l ∈ ls, p l) →
    Along f (fun _ l => p l) s ls
  | [], _, _ => trivial
  | l :: _, _, h => ⟨h l List.mem_cons_self, fun _ _ =>
      Along.of_labels fun l' hl' => h l' (List.mem_cons_of_mem l hl')⟩

theorem Along.and {A A' : σ → α → Prop} : ∀ {ls : List α} {s : σ}, Along f A s ls →
    Along f A' s ls → Along f (fun s l => A s l ∧ A' s l) s ls
  | [], _, _, _ => trivial
  | _ :: _, _, h, h' => ⟨⟨h.1, h'.1⟩, fun s' hs => (h.2 s' hs).and (h'.2 s' hs)⟩

theorem Along.append {A : σ → α → Prop} {ls' : List α} : ∀ {ls : List α} {s : σ},
    Along f A s (ls ++ ls') → Along f A s ls ∧
      ∀ s', runs f s ls = some s' → Along f A s' ls'
  | [], s, h => ⟨trivial, fun s' hs => Option.some.inj hs ▸ h⟩
  | l :: ls, s, h => by
    refine ⟨⟨h.1, fun s' hs => (h.2 s' hs).append.1⟩, fun s' hs => ?_⟩
    obtain ⟨s₁, h₁, hs⟩ := runs_cons.mp hs
    exact (h.2 s₁ h₁).append.2 s' hs

/-- **Invariant rule.** What every step that meets `A` keeps holds after every
run of such steps. -/
theorem runs_inv {P : σ → Prop} {A : σ → α → Prop}
    (hstep : ∀ s l s', P s → A s l → f s l = some s' → P s') :
    ∀ {ls : List α} {s t : σ}, P s → Along f A s ls → runs f s ls = some t → P t
  | [], _, _, hs, _, h => Option.some.inj h ▸ hs
  | l :: _, s, _, hs, hok, h => by
    obtain ⟨s', h₁, h⟩ := runs_cons.mp h
    exact runs_inv hstep (hstep s l s' hs hok.1 h₁) (hok.2 s' h₁) h

/-- What an invariant shows of each step, a run of such steps meets throughout. -/
theorem Along.of_inv {P : σ → Prop} {A B : σ → α → Prop}
    (hstep : ∀ s l s', P s → A s l → f s l = some s' → P s') (hB : ∀ s l, P s → A s l → B s l) :
    ∀ {ls : List α} {s : σ}, P s → Along f A s ls → Along f B s ls
  | [], _, _, _ => trivial
  | l :: _, s, hs, h => ⟨hB s l hs h.1, fun s' h' => Along.of_inv hstep hB (hstep s l s' hs h.1 h')
      (h.2 s' h')⟩

/-- Where every step is a run of another machine, so is a run. -/
theorem runs_project {τ β : Type} {g : τ → β → Option τ} {π : σ → τ} {labels : α → List β}
    (hstep : ∀ s l s', f s l = some s' → runs g (π s) (labels l) = some (π s')) :
    ∀ {ls : List α} {s t : σ}, runs f s ls = some t →
      runs g (π s) (ls.flatMap labels) = some (π t)
  | [], _, _, h => congrArg (some ∘ π) (Option.some.inj h)
  | l :: _, s, _, h => by
    obtain ⟨s', h₁, h⟩ := runs_cons.mp h
    rw [List.flatMap_cons]
    exact runs_append.mpr ⟨π s', hstep s l s' h₁, runs_project hstep h⟩

end Systeml.Lib
