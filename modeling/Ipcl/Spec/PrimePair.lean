/-
The pairs of primes a key is built from.

Everything decryption needs of `p` and `q` follows from four facts: they are
primes, one is smaller, and `p * q` is prime to `(p - 1) * (q - 1)`.  The last one
is what makes `lambda` and the two logarithms of the generator invertible, and it
already excludes the prime two.
-/
import Ipcl.Spec.Paillier

namespace Paillier

/-- Two odd primes, the smaller one first. -/
structure OddPrimes (p q : ℕ) : Prop where
  p_prime : p.Prime
  q_prime : q.Prime
  two_lt : 2 < p
  lt : p < q

namespace OddPrimes

/-- Two different odd primes in their order. -/
theorem sorted {a b : ℕ} (ha : a.Prime) (hb : b.Prime) (ha2 : a ≠ 2) (hb2 : b ≠ 2)
    (hne : a ≠ b) : OddPrimes (min a b) (max a b) := by
  have h2a := ha.two_le
  have h2b := hb.two_le
  rcases le_total a b with hab | hab
  · rw [min_eq_left hab, max_eq_right hab]
    exact ⟨ha, hb, by omega, by omega⟩
  · rw [min_eq_right hab, max_eq_left hab]
    exact ⟨hb, ha, by omega, by omega⟩

variable {p q : ℕ} (h : OddPrimes p q)
include h

theorem p_odd : Odd p := h.p_prime.odd_of_ne_two h.two_lt.ne'

theorem q_odd : Odd q := h.q_prime.odd_of_ne_two (h.two_lt.trans h.lt).ne'

theorem n_odd : Odd (p * q) := h.p_odd.mul h.q_odd

theorem one_lt_n : 1 < p * q := by
  have hp := h.two_lt
  have hq := h.lt
  nlinarith

theorem coprime : p.Coprime q := (Nat.coprime_primes h.p_prime h.q_prime).mpr h.lt.ne

omit h in
theorem coprime_pred_mul {a b : ℕ} (ha : a.Prime) (hab : a.Coprime b) :
    ((a - 1) * b).Coprime a := by
  have hpred : (a - 1).Coprime a := by
    have hpos := ha.pos
    rw [Nat.coprime_comm, Nat.coprime_self_sub_right (by omega)]
    exact Nat.coprime_one_right a
  exact Nat.Coprime.mul_left hpred hab.symm

/-- The logarithm of the generator modulo `p ^ 2`. -/
theorem coprime_left : ((p - 1) * q).Coprime p := coprime_pred_mul h.p_prime h.coprime

/-- The logarithm of the generator modulo `q ^ 2`. -/
theorem coprime_right : ((q - 1) * p).Coprime q := coprime_pred_mul h.q_prime h.coprime.symm

/-- The product is prime to that of the predecessors, unless the smaller prime divides the
larger one's. -/
theorem coprime_iff : (p * q).Coprime ((p - 1) * (q - 1)) ↔ ¬ p ∣ q - 1 := by
  have hp := h.two_lt
  have hlt := h.lt
  have hpp : ¬ p ∣ p - 1 := fun hdvd => by
    have := Nat.le_of_dvd (by omega) hdvd
    omega
  have hqp : ¬ q ∣ p - 1 := fun hdvd => by
    have := Nat.le_of_dvd (by omega) hdvd
    omega
  have hqq : ¬ q ∣ q - 1 := fun hdvd => by
    have := Nat.le_of_dvd (by omega) hdvd
    omega
  rw [Nat.coprime_mul_iff_left, Nat.coprime_mul_iff_right, Nat.coprime_mul_iff_right,
    h.p_prime.coprime_iff_not_dvd, h.p_prime.coprime_iff_not_dvd,
    h.q_prime.coprime_iff_not_dvd, h.q_prime.coprime_iff_not_dvd]
  exact ⟨fun hall => hall.1.2, fun hpq => ⟨⟨hpp, hpq⟩, hqp, hqq⟩⟩

end OddPrimes

structure PrimePair where
  p : ℕ
  q : ℕ
  p_prime : p.Prime
  q_prime : q.Prime
  p_lt_q : p < q
  coprime : (p * q).Coprime ((p - 1) * (q - 1))

namespace PrimePair

/-- The pair two distinct primes make, in whichever order they come. -/
def ofPrimes {a b : ℕ} (ha : a.Prime) (hb : b.Prime) (hne : a ≠ b)
    (hcop : (a * b).Coprime ((a - 1) * (b - 1))) : PrimePair where
  p := min a b
  q := max a b
  p_prime := by rcases le_total a b with h | h <;> simpa [h]
  q_prime := by rcases le_total a b with h | h <;> simpa [h]
  p_lt_q := by omega
  coprime := by
    rcases le_total a b with h | h
    · simpa [h] using hcop
    · simpa [h, Nat.mul_comm] using hcop

variable (P : PrimePair)

/-- The modulus. -/
def n : ℕ := P.p * P.q

/-- The least common multiple of `p - 1` and `q - 1`. -/
def lam : ℕ := Nat.lcm (P.p - 1) (P.q - 1)

theorem n_ofPrimes {a b : ℕ} (ha : a.Prime) (hb : b.Prime) (hne : a ≠ b)
    (hcop : (a * b).Coprime ((a - 1) * (b - 1))) : (ofPrimes ha hb hne hcop).n = a * b :=
  min_mul_max a b

theorem ofPrimes_comm {a b : ℕ} (ha : a.Prime) (hb : b.Prime) (hne : a ≠ b)
    (hcop : (a * b).Coprime ((a - 1) * (b - 1)))
    (hcop' : (b * a).Coprime ((b - 1) * (a - 1))) :
    ofPrimes hb ha hne.symm hcop' = ofPrimes ha hb hne hcop := by
  simp only [ofPrimes, min_comm b a, max_comm b a]

/-! ### Sizes and parity -/

theorem two_lt_p : 2 < P.p := by
  have h2 : 2 ≤ P.p := P.p_prime.two_le
  by_contra hc
  have hp2 : P.p = 2 := by omega
  have hlt := P.p_lt_q
  have hodd : P.q % 2 = 1 := by
    rcases P.q_prime.eq_two_or_odd with h | h <;> omega
  have hleft : 2 ∣ P.p * P.q := by
    rw [hp2]
    exact Nat.dvd_mul_right 2 _
  have hright : 2 ∣ (P.p - 1) * (P.q - 1) := Dvd.dvd.mul_left (by omega) _
  have := Nat.dvd_gcd hleft hright
  rw [P.coprime] at this
  omega

/-- The prime two makes no pair. -/
theorem ne_two {a b : ℕ} (ha : a.Prime) (hb : b.Prime) (hne : a ≠ b)
    (hcop : (a * b).Coprime ((a - 1) * (b - 1))) : a ≠ 2 ∧ b ≠ 2 := by
  have hmin : 2 < min a b := (ofPrimes ha hb hne hcop).two_lt_p
  omega

theorem oddPrimes : OddPrimes P.p P.q := ⟨P.p_prime, P.q_prime, P.two_lt_p, P.p_lt_q⟩

theorem p_odd : Odd P.p := P.oddPrimes.p_odd

theorem q_odd : Odd P.q := P.oddPrimes.q_odd

theorem n_odd : Odd P.n := P.oddPrimes.n_odd

theorem n_pos : 0 < P.n := Nat.mul_pos P.p_prime.pos P.q_prime.pos

theorem q_lt_n : P.q < P.n := by
  have hp := P.two_lt_p
  have hq := P.q_prime.pos
  unfold n
  nlinarith

/-! ### What is invertible -/

theorem coprime_lam : P.lam.Coprime P.n := by
  have hdvd : P.lam ∣ (P.p - 1) * (P.q - 1) := Nat.lcm_dvd_mul _ _
  exact (P.coprime.coprime_dvd_right hdvd).symm

/-- `lambda` is an exponent of the units. -/
theorem pow_lam {u : ℤ} (hu : IsCoprime u (P.n : ℤ)) : u ^ P.lam ≡ 1 [ZMOD (P.n : ℤ)] :=
  Residue.pow_modEq_one_mul P.p_prime P.q_prime P.p_lt_q.ne hu
    (Nat.dvd_lcm_left _ _) (Nat.dvd_lcm_right _ _)

/-- A common multiple written as a multiple of `p - 1`. -/
theorem lam_eq_left : ∃ k, P.lam = (P.p - 1) * k := Nat.dvd_lcm_left _ _

theorem lam_eq_right : ∃ k, P.lam = (P.q - 1) * k := Nat.dvd_lcm_right _ _

theorem isCoprime_p {u : ℤ} (hu : IsCoprime u (P.n : ℤ)) : IsCoprime u (P.p : ℤ) := by
  rw [n, Nat.cast_mul] at hu
  exact IsCoprime.of_mul_right_left hu

theorem isCoprime_q {u : ℤ} (hu : IsCoprime u (P.n : ℤ)) : IsCoprime u (P.q : ℤ) := by
  rw [n, Nat.cast_mul] at hu
  exact IsCoprime.of_mul_right_right hu

end PrimePair

end Paillier
