/-
Numbers in a fixed number of digits.

`Nat.digits` gives as many digits as the number needs.  A buffer has a length of
its own, so what it holds is `fixed`: the low digits of a number, padded with zeros
or cut off.  Reading the buffer back with `Nat.ofDigits` gives the residue modulo
the power of the base, and dropping low digits is dividing.
-/
import Mathlib

namespace Digits

/-- The `len` low digits of `v`, least significant first. -/
def fixed (b len v : ℕ) : List ℕ := (List.range len).map fun i => v / b ^ i % b

variable {b len v : ℕ}

@[simp] theorem length_fixed (b len v : ℕ) : (fixed b len v).length = len := by
  simp [fixed]

@[simp] theorem getElem_fixed {i : ℕ} (hi : i < (fixed b len v).length) :
    (fixed b len v)[i] = v / b ^ i % b := by
  simp [fixed]

theorem lt_of_mem_fixed (hb : 0 < b) {d : ℕ} (hd : d ∈ fixed b len v) : d < b := by
  simp only [fixed, List.mem_map] at hd
  obtain ⟨i, -, rfl⟩ := hd
  exact Nat.mod_lt _ hb

theorem fixed_succ (b len v : ℕ) : fixed b (len + 1) v = v % b :: fixed b len (v / b) := by
  rw [fixed, List.range_succ_eq_map, List.map_cons, List.map_map, pow_zero, Nat.div_one]
  congr 1
  refine List.map_congr_left fun i _ => ?_
  show v / b ^ (i + 1) % b = v / b / b ^ i % b
  rw [Nat.div_div_eq_div_mul, pow_succ']

theorem ofDigits_fixed (b len v : ℕ) : Nat.ofDigits b (fixed b len v) = v % b ^ len := by
  induction len generalizing v with
  | zero => simp [fixed, Nat.mod_one]
  | succ len ih =>
      rw [fixed_succ, Nat.ofDigits_cons, ih, pow_succ', Nat.mod_mul]

theorem ofDigits_fixed_of_lt (h : v < b ^ len) : Nat.ofDigits b (fixed b len v) = v := by
  rw [ofDigits_fixed, Nat.mod_eq_of_lt h]

theorem take_fixed {k : ℕ} (h : k ≤ len) : (fixed b len v).take k = fixed b k v := by
  rw [fixed, ← List.map_take, List.take_range, min_eq_left h]
  rfl

/-- Digits above the number are zero. -/
theorem fixed_append_zeros (hb : 0 < b) {k : ℕ} (h : v < b ^ k) (hk : k ≤ len) :
    fixed b len v = fixed b k v ++ List.replicate (len - k) 0 := by
  apply List.ext_getElem
  · simp [hk]
  · intro i hi hi'
    rw [getElem_fixed]
    by_cases hik : i < k
    · rw [List.getElem_append_left (by simpa using hik), getElem_fixed]
    · have hzero : v / b ^ i = 0 :=
        Nat.div_eq_of_lt (h.trans_le (Nat.pow_le_pow_right hb (by omega)))
      rw [List.getElem_append_right (by simpa using hik)]
      simp [hzero]

theorem fixed_add (b k len v : ℕ) :
    fixed b (k + len) v = fixed b k v ++ fixed b len (v / b ^ k) := by
  rw [fixed, List.range_add, List.map_append, List.map_map]
  congr 1
  refine List.map_congr_left fun i _ => ?_
  show v / b ^ (k + i) % b = v / b ^ k / b ^ i % b
  rw [Nat.div_div_eq_div_mul, pow_add]

theorem fixed_mod (b k v : ℕ) : fixed b k (v % b ^ k) = fixed b k v := by
  refine List.map_congr_left fun i hi => ?_
  have hik : i + 1 ≤ k := List.mem_range.mp hi
  have hpow : b ^ k = b ^ i * b ^ (k - i) := by
    rw [← pow_add]
    congr 1
    omega
  rw [hpow, Nat.mod_mul_right_div_self,
    Nat.mod_mod_of_dvd _ (dvd_pow_self b (by omega : k - i ≠ 0))]

/-- The digits of digits in a power of the base. -/
theorem flatMap_fixed (b k len v : ℕ) :
    (fixed (b ^ k) len v).flatMap (fixed b k) = fixed b (k * len) v := by
  induction len generalizing v with
  | zero => simp [fixed]
  | succ len ih =>
      rw [fixed_succ, List.flatMap_cons, ih, fixed_mod, ← fixed_add, Nat.mul_succ, Nat.add_comm]

/-- A number is zero when all its digits are. -/
theorem ofDigits_eq_zero_iff (hb : 0 < b) (l : List ℕ) :
    Nat.ofDigits b l = 0 ↔ ∀ d ∈ l, d = 0 := by
  induction l with
  | nil => simp
  | cons d rest ih =>
      have hne : b ≠ 0 := hb.ne'
      simp [Nat.ofDigits_cons, ih, hne]

/-- Reversing the digits does not change whether they are all zero. -/
theorem ofDigits_reverse_fixed_eq_zero_iff (hb : 0 < b) :
    Nat.ofDigits b (fixed b len v).reverse = 0 ↔ v % b ^ len = 0 := by
  rw [← ofDigits_fixed, ofDigits_eq_zero_iff hb, ofDigits_eq_zero_iff hb]
  simp only [List.mem_reverse]

end Digits
