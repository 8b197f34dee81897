/-
Powers modulo a square.

A unit whose residue modulo `n` is one is `1 + n * a` modulo `n ^ 2`, and raising
it to a power multiplies `a`: that is the whole of why a discrete logarithm modulo
`n ^ 2` can be read off in the subgroup generated by `1 + n`.  What is collected
here is that calculation, the quotient that reads the logarithm back, and the two
exponents that bring an arbitrary unit into the subgroup: `p - 1` modulo a prime
`p`, and any common multiple of the `p - 1` modulo a product of distinct primes.
-/
import Mathlib

namespace Residue

/-! ### The subgroup of `1 + n * a` -/

theorem one_add_mul_mul (n a b : ℤ) :
    (1 + n * a) * (1 + n * b) ≡ 1 + n * (a + b) [ZMOD n ^ 2] := by
  apply Int.modEq_iff_dvd.mpr
  exact ⟨-(a * b), by ring⟩

/-- Raising `1 + n * a` to a power multiplies `a`. -/
theorem one_add_mul_pow (n a : ℤ) (k : ℕ) :
    (1 + n * a) ^ k ≡ 1 + n * (k * a) [ZMOD n ^ 2] := by
  induction k with
  | zero => simp
  | succ k ih =>
      calc (1 + n * a) ^ (k + 1)
          = (1 + n * a) ^ k * (1 + n * a) := pow_succ _ _
        _ ≡ (1 + n * (k * a)) * (1 + n * a) [ZMOD n ^ 2] := ih.mul_right _
        _ ≡ 1 + n * (k * a + a) [ZMOD n ^ 2] := one_add_mul_mul _ _ _
        _ = 1 + n * (((k + 1 : ℕ) : ℤ) * a) := by push_cast; ring

/-- A residue of one modulo `n` becomes one modulo `n ^ 2` at the `n`-th power. -/
theorem pow_self_modEq_one {n : ℕ} {a : ℤ} (h : a ≡ 1 [ZMOD n]) :
    a ^ n ≡ 1 [ZMOD (n : ℤ) ^ 2] := by
  obtain ⟨s, hs⟩ := Int.modEq_iff_dvd.mp h.symm
  have ha : a = 1 + n * s := by linarith
  rw [ha]
  calc (1 + (n : ℤ) * s) ^ n
      ≡ 1 + n * (n * s) [ZMOD (n : ℤ) ^ 2] := one_add_mul_pow _ _ _
    _ ≡ 1 [ZMOD (n : ℤ) ^ 2] := by
        apply Int.modEq_iff_dvd.mpr
        exact ⟨-s, by ring⟩

/-- Two residues of the subgroup agree modulo `n ^ 2` when their logarithms agree
modulo `n`. -/
theorem one_add_mul_modEq_iff {n a b : ℤ} (hn : n ≠ 0) :
    1 + n * a ≡ 1 + n * b [ZMOD n ^ 2] ↔ a ≡ b [ZMOD n] := by
  constructor
  · intro h
    obtain ⟨s, hs⟩ := Int.modEq_iff_dvd.mp h
    refine Int.modEq_iff_dvd.mpr ⟨s, ?_⟩
    exact mul_left_cancel₀ hn (by linear_combination hs)
  · intro h
    obtain ⟨s, hs⟩ := Int.modEq_iff_dvd.mp h
    exact Int.modEq_iff_dvd.mpr ⟨s, by linear_combination n * hs⟩

/-! ### Reading the logarithm back -/

/-- The quotient `(r - 1) / n`, which is exact on the subgroup. -/
def log (n r : ℤ) : ℤ := (r - 1) / n

theorem one_add_mul_log {n r : ℤ} (h : r ≡ 1 [ZMOD n]) : 1 + n * log n r = r := by
  have hdvd : n ∣ r - 1 := Int.modEq_iff_dvd.mp h.symm
  unfold log
  rw [Int.mul_ediv_cancel' hdvd]
  ring

theorem log_modEq {n r a : ℤ} (hn : n ≠ 0) (h : r ≡ 1 + n * a [ZMOD n ^ 2]) :
    log n r ≡ a [ZMOD n] := by
  have hone : r ≡ 1 [ZMOD n] := by
    refine (h.of_dvd (Dvd.intro_left n (by ring))).trans ?_
    exact Int.modEq_iff_dvd.mpr ⟨-a, by ring⟩
  rw [← one_add_mul_modEq_iff hn, one_add_mul_log hone]
  exact h

theorem log_nonneg {n r : ℤ} (hn : 0 < n) (hr : 1 ≤ r) : 0 ≤ log n r :=
  Int.ediv_nonneg (by omega) hn.le

theorem log_lt {n r : ℤ} (hn : 0 < n) (hr : r < n ^ 2) : log n r < n := by
  unfold log
  apply Int.ediv_lt_of_lt_mul hn
  have : n ^ 2 = n * n := sq n
  omega

/-! ### Exponents that kill a residue -/

/-- Fermat at a multiple of `p - 1`. -/
theorem pow_modEq_one_of_dvd {p : ℕ} (hp : p.Prime) {a : ℤ} (ha : IsCoprime a (p : ℤ))
    {k : ℕ} (hk : p - 1 ∣ k) : a ^ k ≡ 1 [ZMOD p] := by
  obtain ⟨j, rfl⟩ := hk
  rw [pow_mul]
  simpa using (Int.ModEq.pow_card_sub_one_eq_one hp ha).pow j

/-- A common multiple of `p - 1` and `q - 1` is an exponent of the units modulo
`p * q`. -/
theorem pow_modEq_one_mul {p q : ℕ} (hp : p.Prime) (hq : q.Prime) (hpq : p ≠ q) {a : ℤ}
    (ha : IsCoprime a ((p * q : ℕ) : ℤ)) {k : ℕ} (hkp : p - 1 ∣ k) (hkq : q - 1 ∣ k) :
    a ^ k ≡ 1 [ZMOD ((p * q : ℕ) : ℤ)] := by
  have hcop : (p : ℤ).natAbs.Coprime (q : ℤ).natAbs := by
    simpa using (Nat.coprime_primes hp hq).mpr hpq
  rw [Nat.cast_mul] at ha ⊢
  apply (Int.modEq_and_modEq_iff_modEq_mul hcop).mp
  exact ⟨pow_modEq_one_of_dvd hp (IsCoprime.of_mul_right_left ha) hkp,
    pow_modEq_one_of_dvd hq (IsCoprime.of_mul_right_right ha) hkq⟩

end Residue
