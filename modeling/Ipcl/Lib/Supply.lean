/-
Computations that use up a supply.

A computation that draws values from outside is a state transformer on the list of
the values still to come.  Two things are said of one: `Yields`, that on every
supply of good entries that is long enough it succeeds, uses a known number of
entries and returns a value with some property; and `Returns`, that whenever it
succeeds on good entries its value has the property.  The rules follow the way
programs are put together, so a proof about a program is read along its text.
-/
import Mathlib

namespace Supply

variable {δ ε α β : Type}

/-- On a good supply of at least `k` entries the computation succeeds, uses the
first `k` and returns a value with `Q`. -/
def Yields (good : δ → Prop) (prog : StateT (List δ) (Except ε) α) (k : ℕ) (Q : α → Prop) :
    Prop :=
  ∀ supply : List δ, k ≤ supply.length → (∀ d ∈ supply, good d) →
    ∃ x, prog supply = .ok (x, supply.drop k) ∧ Q x

/-- Whenever the computation succeeds on a good supply its value has `Q`, and what is
left of the supply is good. -/
def Returns (good : δ → Prop) (prog : StateT (List δ) (Except ε) α) (Q : α → Prop) : Prop :=
  ∀ supply x rest, (∀ d ∈ supply, good d) → prog supply = .ok (x, rest) →
    Q x ∧ ∀ d ∈ rest, good d

/-- Taking the next entry, or failing with `e` when there is none. -/
def draw (e : ε) : StateT (List δ) (Except ε) δ := fun supply =>
  match supply with
  | [] => .error e
  | d :: rest => .ok (d, rest)

/-! ### Rules for `Yields` -/

namespace Yields

variable {good : δ → Prop} {k l : ℕ} {Q R : α → Prop} {S : β → Prop}

theorem pure {x : α} (hx : Q x) :
    Yields good (Pure.pure x : StateT (List δ) (Except ε) α) 0 Q := by
  intro supply _ _
  exact ⟨x, rfl, hx⟩

theorem bind {prog : StateT (List δ) (Except ε) α} {f : α → StateT (List δ) (Except ε) β}
    (h : Yields good prog k Q) (hf : ∀ x, Q x → Yields good (f x) l S) :
    Yields good (prog >>= f) (k + l) S := by
  intro supply hlen hgood
  obtain ⟨x, hx, hq⟩ := h supply (by omega) hgood
  obtain ⟨y, hy, hs⟩ := hf x hq (supply.drop k) (by rw [List.length_drop]; omega)
    fun d hd => hgood d (List.mem_of_mem_drop hd)
  refine ⟨y, ?_, hs⟩
  show (prog supply >>= fun p => f p.1 p.2) = _
  rw [hx, ← List.drop_drop]
  exact hy

/-- A computation that draws nothing. -/
theorem lift {prog : Except ε α} {x : α} (hprog : prog = .ok x) (hx : Q x) :
    Yields good (liftM prog : StateT (List δ) (Except ε) α) 0 Q := by
  intro supply _ _
  exact ⟨x, by rw [hprog]; rfl, hx⟩

end Yields

/-! ### Rules for `Returns` -/

namespace Returns

variable {good : δ → Prop} {Q R : α → Prop} {S : β → Prop}

theorem pure {x : α} (hx : Q x) :
    Returns good (Pure.pure x : StateT (List δ) (Except ε) α) Q := by
  intro supply y rest hgood hy
  cases hy
  exact ⟨hx, hgood⟩

theorem throw (e : ε) : Returns good (throw e : StateT (List δ) (Except ε) α) Q := by
  intro supply y rest _ hy
  cases hy

theorem draw (e : ε) : Returns good (Supply.draw e : StateT (List δ) (Except ε) δ) good := by
  intro supply y rest hgood hy
  cases supply with
  | nil => cases hy
  | cons d rest' =>
      cases hy
      exact ⟨hgood _ (by simp), fun d' hd' => hgood d' (by simp [hd'])⟩

theorem bind {prog : StateT (List δ) (Except ε) α} {f : α → StateT (List δ) (Except ε) β}
    (h : Returns good prog Q) (hf : ∀ x, Q x → Returns good (f x) S) :
    Returns good (prog >>= f) S := by
  intro supply y rest hgood hy
  have hrun : (prog supply >>= fun p => f p.1 p.2) = .ok (y, rest) := hy
  cases hp : prog supply with
  | error e =>
      rw [hp] at hrun
      cases hrun
  | ok p =>
      rw [hp] at hrun
      obtain ⟨hq, hrest⟩ := h supply p.1 p.2 hgood hp
      exact hf p.1 hq p.2 y rest hrest hrun

/-- Nothing is known of the value, nor asked of the entries. -/
theorem trivial (prog : StateT (List δ) (Except ε) α) :
    Returns (fun _ => True) prog fun _ => True :=
  fun _ _ _ _ _ => ⟨True.intro, fun _ _ => True.intro⟩

/-- Reading the supply takes nothing from it. -/
theorem get : Returns good (get : StateT (List δ) (Except ε) (List δ)) fun _ => True := by
  intro supply y rest hgood hy
  cases hy
  exact ⟨True.intro, hgood⟩

/-- A computation that draws nothing. -/
theorem lift {prog : Except ε α} (h : ∀ x, prog = .ok x → Q x) :
    Returns good (liftM prog : StateT (List δ) (Except ε) α) Q := by
  intro supply x rest hgood hx
  cases hp : prog with
  | error e =>
      rw [hp] at hx
      cases hx
  | ok y =>
      rw [hp] at hx
      cases hx
      exact ⟨h x hp, hgood⟩

end Returns

end Supply
