/-
Primality by a generator.

A number is prime when some residue has the full order `p - 1`, which is tested at the
quotients of `p - 1` by its prime factors.  For `p - 1 = c * r ^ (m + 1)` with a small
`c` all the powers needed are a small power followed by `m` or `m + 1` powers of `r`, so
the tests evaluate.
-/
import Mathlib

namespace Primality

/-- Raising to the power `r` modulo `p`, `m` times. -/
def iterPow (p r : ℕ) : ℕ → ℕ → ℕ
  | 0, x => x
  | m + 1, x => iterPow p r m (x ^ r % p)

theorem iterPow_eq (p r : ℕ) : ∀ (m x : ℕ), x % p = x → iterPow p r m x = x ^ r ^ m % p := by
  intro m
  induction m with
  | zero => intro x hx; simpa [iterPow] using hx.symm
  | succ m ih =>
      intro x _
      rw [iterPow, ih _ (Nat.mod_mod _ _), ← Nat.pow_mod, ← pow_mul, pow_succ']

/-- `a ^ (e * r ^ m)` modulo `p`, computed. -/
theorem iterPow_pow (p r m a e : ℕ) : iterPow p r m (a ^ e % p) = a ^ (e * r ^ m) % p := by
  rw [iterPow_eq _ _ _ _ (Nat.mod_mod _ _), ← Nat.pow_mod, ← pow_mul]

/-- The factors of `c` are in the list `fs`. -/
theorem prime_of_generator {c r m a : ℕ} {fs : List ℕ} (hr : r.Prime)
    (hfs : ∀ s, s.Prime → s ∣ c → s ∈ fs) (hbig : 1 < c * r ^ (m + 1) + 1)
    (hone : iterPow (c * r ^ (m + 1) + 1) r (m + 1) (a ^ c % (c * r ^ (m + 1) + 1)) = 1)
    (hroot : iterPow (c * r ^ (m + 1) + 1) r m (a ^ c % (c * r ^ (m + 1) + 1)) ≠ 1)
    (hfac : ∀ s ∈ fs, iterPow (c * r ^ (m + 1) + 1) r (m + 1)
      (a ^ (c / s) % (c * r ^ (m + 1) + 1)) ≠ 1) :
    (c * r ^ (m + 1) + 1).Prime := by
  have hpred : c * r ^ (m + 1) + 1 - 1 = c * r ^ (m + 1) := rfl
  have hquot : c * r ^ (m + 1) / r = c * r ^ m := by
    rw [pow_succ, ← mul_assoc, Nat.mul_div_cancel _ hr.pos]
  generalize hp : c * r ^ (m + 1) + 1 = p at hone hroot hfac hbig hpred ⊢
  have hcast : ∀ e : ℕ, (a : ZMod p) ^ e = 1 ↔ a ^ e % p = 1 := by
    intro e
    have hmod : (((a ^ e : ℕ) : ZMod p) = ((1 : ℕ) : ZMod p)) ↔ a ^ e ≡ 1 [MOD p] :=
      ZMod.natCast_eq_natCast_iff _ _ _
    rw [Nat.ModEq, Nat.mod_eq_of_lt hbig] at hmod
    rw [← hmod]
    push_cast
    rfl
  rw [iterPow_pow] at hone hroot
  refine lucas_primality p a ?_ fun s hs hdvd => ?_
  · rw [hpred]
    exact (hcast _).mpr hone
  rw [hpred] at hdvd ⊢
  rw [Ne, hcast]
  rcases (Nat.Prime.dvd_mul hs).mp hdvd with hd | hd
  · have hfs := hfac s (hfs s hs hd)
    rw [iterPow_pow] at hfs
    rwa [Nat.mul_div_right_comm hd]
  · rw [(Nat.prime_dvd_prime_iff_eq hs hr).mp (hs.dvd_of_dvd_pow hd), hquot]
    exact hroot

theorem mem_of_dvd_prime {k : ℕ} (hk : k.Prime) : ∀ s : ℕ, s.Prime → s ∣ k → s ∈ [k] :=
  fun _ hs hd => List.mem_singleton.mpr ((Nat.prime_dvd_prime_iff_eq hs hk).mp hd)

theorem mem_of_dvd_two_mul {k : ℕ} (hk : k.Prime) : ∀ s : ℕ, s.Prime → s ∣ 2 * k → s ∈ [2, k] := by
  intro s hs hd
  rcases (Nat.Prime.dvd_mul hs).mp hd with hd | hd
  · simp [(Nat.prime_dvd_prime_iff_eq hs Nat.prime_two).mp hd]
  · simp [(Nat.prime_dvd_prime_iff_eq hs hk).mp hd]

end Primality
