/-
Turning a list.

A shift by `s` moves the element in position `i` to position `i + s` modulo the length,
so a positive shift turns the list to the right and a negative one to the left.  Shifts
add up, and a shift by the length does nothing.
-/
import Mathlib

namespace Cyclic

variable {α β : Type}

/-- The list with every element moved `s` places to the right, around the end. -/
def shift (xs : List α) (s : ℤ) : List α := xs.rotate (-s % xs.length).toNat

@[simp] theorem length_shift (xs : List α) (s : ℤ) : (shift xs s).length = xs.length :=
  List.length_rotate _ _

theorem map_shift (f : α → β) (xs : List α) (s : ℤ) : (shift xs s).map f = shift (xs.map f) s := by
  rw [shift, shift, List.map_rotate, List.length_map]

/-- A shift to the right is the rotation to the left by the rest of the length. -/
theorem shift_eq_rotate {xs : List α} {s : ℤ} (h0 : 0 < s) (h1 : s < xs.length) :
    shift xs s = xs.rotate (xs.length - s).toNat := by
  have hmod : -s % xs.length = xs.length - s := by
    rw [← Int.add_emod_right, show -s + (xs.length : ℤ) = xs.length - s by ring]
    exact Int.emod_eq_of_lt (by omega) (by omega)
  rw [shift, hmod]

@[simp] theorem shift_zero (xs : List α) : shift xs 0 = xs := by
  simp [shift]

@[simp] theorem shift_length (xs : List α) : shift xs xs.length = xs := by
  simp [shift]

/-- Shifts add up. -/
theorem shift_shift (xs : List α) (s t : ℤ) : shift (shift xs s) t = shift xs (s + t) := by
  by_cases hxs : xs = []
  · subst hxs
    simp [shift]
  have hpos : (0 : ℤ) < xs.length := by
    have := List.length_pos_iff.mpr hxs
    omega
  have hs := Int.emod_nonneg (-s) hpos.ne'
  have ht := Int.emod_nonneg (-t) hpos.ne'
  rw [shift, length_shift, shift, List.rotate_rotate, ← Int.toNat_add hs ht, ← List.rotate_mod]
  have hmod : ((-s % xs.length + -t % xs.length).toNat % xs.length : ℕ)
      = (-(s + t) % (xs.length : ℤ)).toNat := by
    apply Int.natCast_inj.mp
    rw [Int.natCast_mod, Int.toNat_of_nonneg (add_nonneg hs ht),
      Int.toNat_of_nonneg (Int.emod_nonneg _ hpos.ne'), ← Int.add_emod]
    congr 1
    ring
  rw [hmod, shift]

/-- Shifting both lists keeps a relation between them. -/
theorem forall₂_shift {R : α → β → Prop} {xs : List α} {ys : List β} (h : List.Forall₂ R xs ys)
    (s : ℤ) : List.Forall₂ R (shift xs s) (shift ys s) := by
  rw [shift, shift, h.length_eq, List.rotate_eq_drop_append_take_mod,
    List.rotate_eq_drop_append_take_mod, h.length_eq]
  exact List.rel_append (List.forall₂_drop _ h) (List.forall₂_take _ h)

/-- Where an element goes. -/
theorem getElem?_shift (xs : List α) (s : ℤ) {i : ℕ} (hi : i < xs.length) :
    (shift xs s)[((i + s) % xs.length).toNat]? = xs[i]? := by
  have hpos : (0 : ℤ) < xs.length := by omega
  have hto := Int.emod_nonneg (i + s) hpos.ne'
  have hfrom := Int.emod_nonneg (-s) hpos.ne'
  have hlt := Int.emod_lt_of_pos (i + s) hpos
  have hmod : (((i + s) % xs.length).toNat + (-s % xs.length).toNat) % xs.length = i := by
    apply Int.natCast_inj.mp
    push_cast
    rw [Int.toNat_of_nonneg hto, Int.toNat_of_nonneg hfrom, ← Int.add_emod,
      show (i : ℤ) + s + -s = i by ring]
    exact Int.emod_eq_of_lt (by omega) (by omega)
  rw [shift, List.getElem?_rotate (by omega), hmod]

end Cyclic
