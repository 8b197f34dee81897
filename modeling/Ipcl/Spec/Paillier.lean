/-
What the cryptosystem is for.

A residue `c` encrypts `m` under `n` when it is `(1 + n * m) * u ^ n` modulo
`n ^ 2` for some unit `u`.  Nothing here is translated from the source: this is
the statement of purpose the key and ciphertext classes are measured against.
Products of residues encrypt sums and powers encrypt multiples, whatever the
units are, and raising to a common multiple of `p - 1` and `q - 1` removes the
unit and leaves `m` in the exponent of `1 + n`.

The last section is what makes decryption modulo `p` and `q` agree with
decryption modulo `n`.  It speaks of an arbitrary unit, encrypted or not: the
logarithm taken modulo `p ^ 2` with exponent `p - 1` and the one taken modulo
`n ^ 2` with exponent `(p - 1) * k` differ by the factor that the two stored
inverses undo.
-/
import Ipcl.Lib.Residue

namespace Paillier

open Residue

/-- `c` encrypts `m` under the modulus `n`. -/
def Encrypts (n : ℕ) (c m : ℤ) : Prop :=
  ∃ u : ℤ, IsCoprime u (n : ℤ) ∧ c ≡ (1 + n * m) * u ^ n [ZMOD (n : ℤ) ^ 2]

/-- `o` can be multiplied into an encryption without changing what it encrypts. -/
def Obfuscates (n : ℕ) (o : ℤ) : Prop :=
  ∃ u : ℤ, IsCoprime u (n : ℤ) ∧ o ≡ u ^ n [ZMOD (n : ℤ) ^ 2]

/-- A residue modulo `n ^ 2` that is prime to `n`. -/
structure UnitResidue (n : ℕ) (c : ℤ) : Prop where
  nonneg : 0 ≤ c
  lt : c < n * n
  coprime : IsCoprime c (n : ℤ)

/-- A residue modulo `n ^ 2` that encrypts `m`. -/
structure Cipher (n : ℕ) (c m : ℤ) : Prop where
  nonneg : 0 ≤ c
  lt : c < n * n
  encrypts : Encrypts n c m

variable {n : ℕ} {c c' m m' : ℤ}

theorem isCoprime_of_modEq_sq (hc : IsCoprime c' (n : ℤ)) (h : c ≡ c' [ZMOD (n : ℤ) ^ 2]) :
    IsCoprime c (n : ℤ) := by
  have hn : c ≡ c' [ZMOD (n : ℤ)] := h.of_dvd (Dvd.intro_left (n : ℤ) (by ring))
  obtain ⟨s, hs⟩ := Int.modEq_iff_dvd.mp hn
  have : c = c' + n * (-s) := by linarith
  rw [this]
  exact hc.add_mul_left_left (-s)

theorem isCoprime_one_add_mul (n : ℕ) (m : ℤ) : IsCoprime (1 + (n : ℤ) * m) (n : ℤ) :=
  isCoprime_one_left.add_mul_left_left m

namespace Encrypts

/-! ### Operations on encryptions -/

theorem unit (h : Encrypts n c m) : IsCoprime c (n : ℤ) := by
  obtain ⟨u, hu, hc⟩ := h
  exact isCoprime_of_modEq_sq ((isCoprime_one_add_mul n m).mul_left hu.pow_left) hc

theorem congr (h : Encrypts n c m) (hc : c' ≡ c [ZMOD (n : ℤ) ^ 2]) : Encrypts n c' m := by
  obtain ⟨u, hu, hcu⟩ := h
  exact ⟨u, hu, hc.trans hcu⟩

/-- Reducing modulo `n ^ 2` changes nothing. -/
theorem emod (h : Encrypts n c m) : Encrypts n (c % (n : ℤ) ^ 2) m :=
  h.congr (Int.mod_modEq _ _)

/-- The encryption with unit one. -/
theorem fresh (n : ℕ) (m : ℤ) : Encrypts n (1 + n * m) m :=
  ⟨1, isCoprime_one_left, by simp⟩

/-- Multiplying by the `n`-th power of a unit does not change the plaintext. -/
theorem obfuscate (h : Encrypts n c m) {o : ℤ} (ho : Obfuscates n o) :
    Encrypts n (c * o) m := by
  obtain ⟨u, hu, hc⟩ := h
  obtain ⟨r, hr, hor⟩ := ho
  refine ⟨u * r, hu.mul_left hr, (hc.mul hor).trans ?_⟩
  rw [mul_pow, mul_assoc]

theorem mul (h : Encrypts n c m) (h' : Encrypts n c' m') :
    Encrypts n (c * c') (m + m') := by
  obtain ⟨u, hu, hc⟩ := h
  obtain ⟨u', hu', hc'⟩ := h'
  refine ⟨u * u', hu.mul_left hu', ?_⟩
  calc c * c' ≡ ((1 + n * m) * u ^ n) * ((1 + n * m') * u' ^ n) [ZMOD (n : ℤ) ^ 2] :=
        hc.mul hc'
    _ = ((1 + n * m) * (1 + n * m')) * (u * u') ^ n := by ring
    _ ≡ (1 + n * (m + m')) * (u * u') ^ n [ZMOD (n : ℤ) ^ 2] :=
        (one_add_mul_mul _ _ _).mul_right _

theorem pow (h : Encrypts n c m) (k : ℕ) : Encrypts n (c ^ k) (k * m) := by
  obtain ⟨u, hu, hc⟩ := h
  refine ⟨u ^ k, hu.pow_left, ?_⟩
  calc c ^ k ≡ ((1 + n * m) * u ^ n) ^ k [ZMOD (n : ℤ) ^ 2] := hc.pow k
    _ = (1 + n * m) ^ k * (u ^ k) ^ n := by rw [mul_pow, ← pow_mul, ← pow_mul, mul_comm n]
    _ ≡ (1 + n * (k * m)) * (u ^ k) ^ n [ZMOD (n : ℤ) ^ 2] :=
        (one_add_mul_pow _ _ _).mul_right _

end Encrypts

/-! ### Reduced encryptions -/

namespace Cipher

theorem of_encrypts (hn : 0 < n) (h : Encrypts n c m) : Cipher n (c % (n * n)) m := by
  have hpos : (0 : ℤ) < (n : ℤ) * n := by positivity
  refine ⟨Int.emod_nonneg _ hpos.ne', Int.emod_lt_of_pos _ hpos, ?_⟩
  rw [← sq]
  exact h.emod

theorem unitResidue (h : Cipher n c m) : UnitResidue n c := ⟨h.nonneg, h.lt, h.encrypts.unit⟩

end Cipher

theorem UnitResidue.one_le (hn : 1 < n) (h : UnitResidue n c) : 1 ≤ c := by
  have h0 := h.nonneg
  have hne : c ≠ 0 := by
    intro hc
    have hunit := h.coprime
    rw [hc, isCoprime_zero_left, Int.isUnit_iff] at hunit
    omega
  omega

/-! ### Removing the unit -/

namespace Encrypts

/-- An exponent of the units modulo `n` leaves a power of `1 + n`. -/
theorem pow_exponent (h : Encrypts n c m) {l : ℕ}
    (hl : ∀ u : ℤ, IsCoprime u (n : ℤ) → u ^ l ≡ 1 [ZMOD (n : ℤ)]) :
    c ^ l ≡ 1 + n * (l * m) [ZMOD (n : ℤ) ^ 2] := by
  obtain ⟨u, hu, hc⟩ := h
  have hun : (u ^ l) ^ n ≡ 1 [ZMOD (n : ℤ) ^ 2] := pow_self_modEq_one (hl u hu)
  calc c ^ l ≡ ((1 + n * m) * u ^ n) ^ l [ZMOD (n : ℤ) ^ 2] := hc.pow l
    _ = (1 + n * m) ^ l * (u ^ l) ^ n := by rw [mul_pow, ← pow_mul, ← pow_mul, mul_comm n]
    _ ≡ (1 + n * (l * m)) * 1 [ZMOD (n : ℤ) ^ 2] := (one_add_mul_pow _ _ _).mul hun
    _ = 1 + n * (l * m) := mul_one _

end Encrypts

/-- Multiplying the logarithm by the inverse of the exponent gives the plaintext. -/
theorem Encrypts.plain (h : Encrypts n c m) (hn : (n : ℤ) ≠ 0) {l : ℕ} {x r : ℤ}
    (hl : ∀ u : ℤ, IsCoprime u (n : ℤ) → u ^ l ≡ 1 [ZMOD (n : ℤ)])
    (hx : (l : ℤ) * x ≡ 1 [ZMOD (n : ℤ)]) (hr : r ≡ c ^ l [ZMOD (n : ℤ) ^ 2]) :
    log n r * x ≡ m [ZMOD (n : ℤ)] := by
  have hlog : log n r ≡ l * m [ZMOD (n : ℤ)] := log_modEq hn (hr.trans (h.pow_exponent hl))
  calc log n r * x ≡ (l * m) * x [ZMOD (n : ℤ)] := hlog.mul_right x
    _ = (l * x) * m := by ring
    _ ≡ 1 * m [ZMOD (n : ℤ)] := hx.mul_right m
    _ = m := one_mul m

/-! ### Decryption modulo a prime factor -/

section Prime

variable {p q k : ℕ} {a t : ℤ}

/-- The two logarithms of one unit, `a` modulo `p ^ 2` and `t` modulo `(p * q) ^ 2`. -/
theorem log_factor (hp : (p : ℤ) ≠ 0) (ha : c ^ (p - 1) ≡ 1 + p * a [ZMOD (p : ℤ) ^ 2])
    (ht : c ^ ((p - 1) * k) ≡ 1 + ((p * q : ℕ) : ℤ) * t [ZMOD ((p * q : ℕ) : ℤ) ^ 2]) :
    (k : ℤ) * a ≡ q * t [ZMOD (p : ℤ)] := by
  have hdvd : (p : ℤ) ^ 2 ∣ ((p * q : ℕ) : ℤ) ^ 2 :=
    ⟨(q : ℤ) ^ 2, by push_cast; ring⟩
  have hleft : c ^ ((p - 1) * k) ≡ 1 + p * (k * a) [ZMOD (p : ℤ) ^ 2] := by
    rw [pow_mul]
    exact (ha.pow k).trans (one_add_mul_pow _ _ _)
  have hright : c ^ ((p - 1) * k) ≡ 1 + p * (q * t) [ZMOD (p : ℤ) ^ 2] := by
    have heq : 1 + ((p * q : ℕ) : ℤ) * t = 1 + p * (q * t) := by
      push_cast
      ring
    rw [← heq]
    exact ht.of_dvd hdvd
  exact (one_add_mul_modEq_iff hp).mp (hleft.symm.trans hright)

/--
The plaintext read modulo `p` is the plaintext read modulo `p * q`.

`h` undoes the logarithm `(p - 1) * q` of the generator modulo `p ^ 2` and `x` the
exponent `(p - 1) * k` modulo `p`, so both sides are the same multiple of `a`.
-/
theorem plain_factor {h x : ℤ} (hp : (p : ℤ) ≠ 0) (hp1 : 1 ≤ p)
    (ha : c ^ (p - 1) ≡ 1 + p * a [ZMOD (p : ℤ) ^ 2])
    (ht : c ^ ((p - 1) * k) ≡ 1 + ((p * q : ℕ) : ℤ) * t [ZMOD ((p * q : ℕ) : ℤ) ^ 2])
    (hh : ((p - 1 : ℕ) : ℤ) * q * h ≡ 1 [ZMOD (p : ℤ)])
    (hx : (((p - 1) * k : ℕ) : ℤ) * x ≡ 1 [ZMOD (p : ℤ)]) :
    a * h ≡ t * x [ZMOD (p : ℤ)] := by
  have hfac : (k : ℤ) * a ≡ q * t [ZMOD (p : ℤ)] := log_factor hp ha ht
  push_cast [Nat.cast_sub hp1] at hh hx
  calc a * h ≡ a * h * ((p - 1) * k * x) [ZMOD (p : ℤ)] := by
        simpa using (hx.symm.mul_left (a * h))
    _ = (k * a) * (h * (p - 1) * x) := by ring
    _ ≡ (q * t) * (h * (p - 1) * x) [ZMOD (p : ℤ)] := hfac.mul_right _
    _ = ((p - 1) * q * h) * (t * x) := by ring
    _ ≡ 1 * (t * x) [ZMOD (p : ℤ)] := hh.mul_right _
    _ = t * x := one_mul _

end Prime

end Paillier
