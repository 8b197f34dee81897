/-
Refinement of fallible computations.

A specification that fails can mean two things: that the program fails as well and in
the same way, or that nothing is asked of it.  Which failures bind the program is the
parameter `binding`.  The rules follow the way both sides are put together, so a program
is compared with its specification line by line, and a run with a run by its steps.
-/
import Mathlib

namespace Refinement

variable {ε α β γ δ : Type} {binding : ε → Prop}

/-- The program returns what the specification returns, up to `R`, and fails as it fails
where that binds the program. -/
structure Meets (binding : ε → Prop) (R : α → β → Prop) (prog : Except ε α)
    (spec : Except ε β) : Prop where
  returns : ∀ y, spec = .ok y → ∃ x, prog = .ok x ∧ R x y
  fails : ∀ e, spec = .error e → binding e → prog = .error e

namespace Meets

variable {R : α → β → Prop} {S : γ → δ → Prop} {prog : Except ε α} {spec : Except ε β}

theorem ok {x : α} {y : β} (h : R x y) : Meets binding R (.ok x) (.ok y) where
  returns z hz := ⟨x, rfl, Except.ok.inj hz ▸ h⟩
  fails _ he := by cases he

/-- A program that is known to return. -/
theorem of_eq {x : α} {y : β} (hprog : prog = .ok x) (h : R x y) :
    Meets binding R prog (.ok y) := by
  rw [hprog]
  exact ok h

/-- Both sides fail. -/
theorem error (e : ε) :
    Meets binding R (.error e : Except ε α) (.error e : Except ε β) where
  returns _ hy := by cases hy
  fails e' he _ := by
    rw [Except.error.inj he]

/-- The specification fails in a way that asks nothing of the program. -/
theorem free {e : ε} (h : ¬ binding e) :
    Meets binding R prog (.error e : Except ε β) where
  returns _ hy := by cases hy
  fails e' he hb := absurd (Except.error.inj he ▸ hb) h

/-- Sequences, part after part. -/
theorem bind {f : α → Except ε γ} {g : β → Except ε δ} (h : Meets binding R prog spec)
    (hf : ∀ x y, R x y → Meets binding S (f x) (g y)) :
    Meets binding S (prog >>= f) (spec >>= g) := by
  cases hspec : spec with
  | ok y =>
      obtain ⟨x, hx, hxy⟩ := h.returns y hspec
      rw [hx]
      exact hf x y hxy
  | error e =>
      by_cases hb : binding e
      · rw [h.fails e hspec hb]
        exact error e
      · exact free hb

/-- A program that goes through a list as the specification does. -/
theorem foldlM {ι : Type} {f : α → ι → Except ε α} {g : β → ι → Except ε β}
    (hstep : ∀ i x y, R x y → Meets binding R (f x i) (g y i)) :
    ∀ (is : List ι) {x : α} {y : β}, R x y →
      Meets binding R (is.foldlM f x) (is.foldlM g y) := by
  intro is
  induction is with
  | nil => exact fun h => ok h
  | cons i rest ih =>
      intro x y h
      rw [List.foldlM_cons, List.foldlM_cons]
      exact (hstep i x y h).bind fun x' y' h' => ih h'

end Meets

/-- A loop over a computation with a state is a loop over the pairs of value and state. -/
theorem foldlM_run {σ ι : Type} {f : α → ι → StateT σ (Except ε) α} :
    ∀ (is : List ι) (x : α) (s : σ),
      (is.foldlM f x) s = is.foldlM (fun c i => f c.1 i c.2) (x, s) := by
  intro is
  induction is with
  | nil => intro x s; rfl
  | cons i rest ih =>
      intro x s
      rw [List.foldlM_cons, List.foldlM_cons]
      show (f x i s >>= fun c => rest.foldlM f c.1 c.2) = _
      exact bind_congr fun c => ih c.1 c.2

end Refinement
