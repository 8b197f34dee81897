/-
Decryption modulo `p` and `q` is decryption modulo `n`.

Both ways of decrypting are first reduced to a function of one residue: `rawPlain`
reads one logarithm modulo `n ^ 2`, `crtPlain` reads two, modulo `p ^ 2` and
`q ^ 2`, and recombines them.  For a unit the two logarithms modulo `p ^ 2` and
`n ^ 2` are tied by `plain_factor`, so the two plaintexts agree modulo `p`, by the
same argument modulo `q`, and both lie in `[0, n)`.

The recombination subtracts in an order that makes the difference negative for
half of the residues; what saves it is that the reduction modulo `q` returns a
residue that is not negative.
-/
import Ipcl.Proofs.PriKey

namespace Ipcl

open BigNumber Paillier

/-- A number prime to the modulus has an invertible residue. -/
theorem invertible_mod {t m : ℕ} (hm : 1 < m) (hcop : t.Coprime m) :
    Invertible ((t % m : ℕ) : ℤ) m := by
  have hmod : (t % m).Coprime m := by
    rw [Nat.Coprime, ← Nat.gcd_rec, Nat.gcd_comm]
    exact hcop
  have hne : t % m ≠ 0 := by
    intro hc
    rw [hc, Nat.coprime_zero_left] at hmod
    omega
  refine ⟨by omega, by exact_mod_cast Nat.mod_lt _ (by omega), ?_⟩
  rwa [Int.gcd_natCast_natCast]

namespace PrivateKey

variable {ipp : Ipp} {me : ModExp} (h : ipp.Lawful) (hme : me.OneExact) (P : PrimePair)

/-! ### The inverses a key stores -/

section
variable {p q : ℕ} (hpq : OddPrimes p q)
include hpq

theorem invertible_pinverse : Invertible (p : ℤ) q := by
  have hp := hpq.p_prime.pos
  have hlt := hpq.lt
  refine ⟨by omega, by omega, ?_⟩
  rw [Int.gcd_natCast_natCast]
  exact hpq.coprime

theorem invertible_hp : Invertible (((p - 1) * q % p : ℕ) : ℤ) p :=
  invertible_mod hpq.p_prime.one_lt hpq.coprime_left

theorem invertible_hq : Invertible (((q - 1) * p % q : ℕ) : ℤ) q :=
  invertible_mod hpq.q_prime.one_lt hpq.coprime_right

end

theorem invertible_x : Invertible ((P.lam % P.n : ℕ) : ℤ) P.n :=
  invertible_mod (P.q_prime.one_lt.trans P.q_lt_n) P.coprime_lam

section
include h

/-- The inverse of a residue undoes the number it is the residue of. -/
theorem mul_inverseMul {t m : ℕ} (hinv : Invertible ((t % m : ℕ) : ℤ) m) :
    (t : ℤ) * inverseMul ipp m ((t % m : ℕ) : ℤ) ≡ 1 [ZMOD m] := by
  obtain ⟨-, -, hone⟩ := h.modInv_exact _ _ hinv
  refine Int.ModEq.trans (Int.ModEq.mul_right _ ?_) hone
  rw [Int.natCast_mod]
  exact (Int.mod_modEq _ _).symm

section
variable {p q : ℕ} (hpq : OddPrimes p q)
include hpq

theorem pinverse_spec : (p : ℤ) * (ofFactors ipp p q).pinverse ≡ 1 [ZMOD q] :=
  (h.modInv_exact _ _ (invertible_pinverse hpq)).2.2

theorem hp_spec : ((p - 1 : ℕ) : ℤ) * q * (ofFactors ipp p q).hp ≡ 1 [ZMOD p] := by
  rw [← Nat.cast_mul]
  exact mul_inverseMul h (invertible_hp hpq)

theorem hq_spec : ((q - 1 : ℕ) : ℤ) * p * (ofFactors ipp p q).hq ≡ 1 [ZMOD q] := by
  rw [← Nat.cast_mul]
  exact mul_inverseMul h (invertible_hq hpq)

end

theorem x_spec : (P.lam : ℤ) * (ofPair ipp P).x ≡ 1 [ZMOD P.n] :=
  mul_inverseMul h (invertible_x P)

end

/-! ### Decrypting one residue -/

/-- What `decryptRAW` makes of one residue. -/
def rawPlain (ipp : Ipp) (P : PrimePair) (c : ℤ) : ℤ :=
  Residue.log P.n (powMod c P.lam (P.n * P.n)) * (ofPair ipp P).x % P.n

/-- What `decryptCRT` makes of one residue modulo one of the primes. -/
def factorPlain (a : ℕ) (inv c : ℤ) : ℤ :=
  Residue.log a (powMod (c % (a * a)) ((a : ℤ) - 1) (a * a)) * inv % a

/-- What `decryptCRT` makes of one residue. -/
def crtPlain (ipp : Ipp) (P : PrimePair) (c : ℤ) : ℤ :=
  computeCRT ipp (ofPair ipp P) (factorPlain P.p (ofPair ipp P).hp c)
    (factorPlain P.q (ofPair ipp P).hq c)

/-- The same two for any odd primes, whether or not the key can decrypt. -/
def rawFactors (ipp : Ipp) (p q : ℕ) (c : ℤ) : ℤ :=
  Residue.log (p * q : ℕ)
    (powMod c (Nat.lcm (p - 1) (q - 1) : ℕ) ((p * q : ℕ) * (p * q : ℕ)))
      * (ofFactors ipp p q).x % (p * q : ℕ)

def crtFactors (ipp : Ipp) (p q : ℕ) (c : ℤ) : ℤ :=
  computeCRT ipp (ofFactors ipp p q) (factorPlain p (ofFactors ipp p q).hp c)
    (factorPlain q (ofFactors ipp p q).hq c)

theorem rawPlain_range (c : ℤ) : 0 ≤ rawPlain ipp P c ∧ rawPlain ipp P c < P.n := by
  have hn : (0 : ℤ) < P.n := by exact_mod_cast P.n_pos
  exact ⟨Int.emod_nonneg _ hn.ne', Int.emod_lt_of_pos _ hn⟩

theorem factorPlain_range {a : ℕ} (ha : 0 < a) (inv c : ℤ) :
    0 ≤ factorPlain a inv c ∧ factorPlain a inv c < a := by
  have ha' : (0 : ℤ) < a := by exact_mod_cast ha
  exact ⟨Int.emod_nonneg _ ha'.ne', Int.emod_lt_of_pos _ ha'⟩

/-- A power that is one modulo `a` carries its logarithm modulo `a ^ 2`. -/
theorem pow_modEq_log {a : ℕ} {b e : ℤ} (hone : b ^ e.toNat ≡ 1 [ZMOD a]) :
    b ^ e.toNat ≡ 1 + a * Residue.log a (powMod b e (a * a)) [ZMOD (a : ℤ) ^ 2] := by
  have hmod : powMod b e (a * a) ≡ b ^ e.toNat [ZMOD (a : ℤ) ^ 2] := by
    rw [← sq]
    exact powMod_modEq b e _
  have hone' : powMod b e (a * a) ≡ 1 [ZMOD (a : ℤ)] :=
    (hmod.of_dvd (Dvd.intro_left (a : ℤ) (by ring))).trans hone
  rw [Residue.one_add_mul_log hone']
  exact hmod.symm

section
variable {c : ℤ}

theorem pow_lam_log (hc : IsCoprime c (P.n : ℤ)) :
    c ^ P.lam ≡ 1 + P.n * Residue.log P.n (powMod c P.lam (P.n * P.n)) [ZMOD (P.n : ℤ) ^ 2] :=
  pow_modEq_log (e := (P.lam : ℤ)) (P.pow_lam hc)

theorem pow_pred_log {a : ℕ} (ha : a.Prime) (hc : IsCoprime c (a : ℤ)) :
    c ^ (a - 1) ≡ 1 + a * Residue.log a (powMod (c % (a * a)) ((a : ℤ) - 1) (a * a))
      [ZMOD (a : ℤ) ^ 2] := by
  have hexp : ((a : ℤ) - 1).toNat = a - 1 := by omega
  have hred : c % (a * a) ≡ c [ZMOD (a : ℤ) ^ 2] := by
    rw [sq]
    exact Int.mod_modEq _ _
  have hfermat : (c % (a * a)) ^ ((a : ℤ) - 1).toNat ≡ 1 [ZMOD (a : ℤ)] := by
    rw [hexp]
    refine Residue.pow_modEq_one_of_dvd ha ?_ dvd_rfl
    exact isCoprime_of_modEq_sq hc hred
  have hlog := pow_modEq_log hfermat
  rw [hexp] at hlog
  exact ((hred.pow (a - 1)).symm).trans hlog

include h

/-- Modulo `p` the plaintext read modulo `n ^ 2` is the one read modulo `p ^ 2`. -/
theorem factorPlain_p (hc : IsCoprime c (P.n : ℤ)) :
    factorPlain P.p (ofPair ipp P).hp c ≡ rawPlain ipp P c [ZMOD P.p] := by
  obtain ⟨k, hk⟩ := P.lam_eq_left
  have hx : (((P.p - 1) * k : ℕ) : ℤ) * (ofPair ipp P).x ≡ 1 [ZMOD P.p] := by
    rw [← hk]
    exact (x_spec h P).of_dvd (by exact_mod_cast Nat.dvd_mul_right P.p P.q)
  have ht : c ^ ((P.p - 1) * k)
      ≡ 1 + ((P.p * P.q : ℕ) : ℤ) * Residue.log P.n (powMod c P.lam (P.n * P.n))
        [ZMOD ((P.p * P.q : ℕ) : ℤ) ^ 2] := by
    rw [← hk]
    exact pow_lam_log P hc
  have hplain := plain_factor (by exact_mod_cast P.p_prime.ne_zero) P.p_prime.one_le
    (pow_pred_log P.p_prime (P.isCoprime_p hc)) ht (hp_spec h P.oddPrimes) hx
  have hraw : rawPlain ipp P c ≡ _ [ZMOD P.p] :=
    (Int.mod_modEq _ _).of_dvd (by exact_mod_cast Nat.dvd_mul_right P.p P.q)
  exact ((Int.mod_modEq _ _).trans hplain).trans hraw.symm

theorem factorPlain_q (hc : IsCoprime c (P.n : ℤ)) :
    factorPlain P.q (ofPair ipp P).hq c ≡ rawPlain ipp P c [ZMOD P.q] := by
  obtain ⟨k, hk⟩ := P.lam_eq_right
  have hn : P.n = P.q * P.p := Nat.mul_comm _ _
  have hdvd : (P.q : ℤ) ∣ P.n := by exact_mod_cast Nat.dvd_mul_left P.q P.p
  have hx : (((P.q - 1) * k : ℕ) : ℤ) * (ofPair ipp P).x ≡ 1 [ZMOD P.q] := by
    rw [← hk]
    exact (x_spec h P).of_dvd hdvd
  have ht : c ^ ((P.q - 1) * k)
      ≡ 1 + ((P.q * P.p : ℕ) : ℤ) * Residue.log P.n (powMod c P.lam (P.n * P.n))
        [ZMOD ((P.q * P.p : ℕ) : ℤ) ^ 2] := by
    rw [← hk, ← hn]
    exact pow_lam_log P hc
  have hplain := plain_factor (by exact_mod_cast P.q_prime.ne_zero) P.q_prime.one_le
    (pow_pred_log P.q_prime (P.isCoprime_q hc)) ht (hq_spec h P.oddPrimes) hx
  have hraw : rawPlain ipp P c ≡ _ [ZMOD P.q] := (Int.mod_modEq _ _).of_dvd hdvd
  exact ((Int.mod_modEq _ _).trans hplain).trans hraw.symm

/-- Decrypting an encryption gives the residue of what it encrypts. -/
theorem rawPlain_of_encrypts {m : ℤ} (hc : Encrypts P.n c m) : rawPlain ipp P c = m % P.n := by
  have hn : (P.n : ℤ) ≠ 0 := by exact_mod_cast P.n_pos.ne'
  have hr : powMod c P.lam (P.n * P.n) ≡ c ^ P.lam [ZMOD (P.n : ℤ) ^ 2] := by
    rw [← sq]
    exact powMod_modEq c P.lam _
  exact hc.plain hn (fun u hu => P.pow_lam hu) (x_spec h P) hr

/-! ### Recombination -/

section
variable {p q : ℕ} (hpq : OddPrimes p q)
include hpq

theorem computeCRT_eq {mp mq : ℤ} (hmp : 0 ≤ mp) (hmq : 0 ≤ mq) :
    computeCRT ipp (ofFactors ipp p q) mp mq
      = mp + (mq - mp) * (ofFactors ipp p q).pinverse % q * p := by
  have hq : (0 : ℤ) < q := by exact_mod_cast hpq.q_prime.pos
  simp only [computeCRT, add_eq h, mul_eq h, sub_eq_of_nonneg h hmq hmp]
  rw [show (ofFactors ipp p q).q = q from rfl, mod_eq h _ hq]
  rfl

theorem computeCRT_range {mp mq : ℤ} (hmp : 0 ≤ mp) (hmpp : mp < p) (hmq : 0 ≤ mq) :
    0 ≤ computeCRT ipp (ofFactors ipp p q) mp mq ∧
      computeCRT ipp (ofFactors ipp p q) mp mq < (p * q : ℕ) := by
  have hp : (0 : ℤ) < p := by exact_mod_cast hpq.p_prime.pos
  have hq : (0 : ℤ) < q := by exact_mod_cast hpq.q_prime.pos
  rw [computeCRT_eq h hpq hmp hmq, Nat.cast_mul]
  set u := (mq - mp) * (ofFactors ipp p q).pinverse % q
  have hu0 : 0 ≤ u := Int.emod_nonneg _ hq.ne'
  have hu1 : u + 1 ≤ q := Int.emod_lt_of_pos _ hq
  constructor
  · positivity
  · calc mp + u * p < p + u * p := by omega
      _ = p * (u + 1) := by ring
      _ ≤ p * q := mul_le_mul_of_nonneg_left hu1 hp.le

theorem computeCRT_modEq {mp mq : ℤ} (hmp : 0 ≤ mp) (hmq : 0 ≤ mq) :
    computeCRT ipp (ofFactors ipp p q) mp mq ≡ mp [ZMOD p] ∧
      computeCRT ipp (ofFactors ipp p q) mp mq ≡ mq [ZMOD q] := by
  rw [computeCRT_eq h hpq hmp hmq]
  constructor
  · exact Int.modEq_iff_dvd.mpr ⟨-((mq - mp) * (ofFactors ipp p q).pinverse % q), by ring⟩
  · have hu : (mq - mp) * (ofFactors ipp p q).pinverse % q
        ≡ (mq - mp) * (ofFactors ipp p q).pinverse [ZMOD q] := Int.mod_modEq _ _
    calc mp + (mq - mp) * (ofFactors ipp p q).pinverse % q * p
        ≡ mp + (mq - mp) * (ofFactors ipp p q).pinverse * p [ZMOD q] :=
          (hu.mul_right _).add_left _
      _ = mp + (mq - mp) * (p * (ofFactors ipp p q).pinverse) := by ring
      _ ≡ mp + (mq - mp) * 1 [ZMOD q] := ((pinverse_spec h hpq).mul_left _).add_left _
      _ = mq := by ring

/-- A residue in the range with the right remainders is what the recombination returns. -/
theorem computeCRT_unique {mp mq r : ℤ} (hmp : 0 ≤ mp) (hmpp : mp < p) (hmq : 0 ≤ mq)
    (hr0 : 0 ≤ r) (hr1 : r < (p * q : ℕ)) (hrp : mp ≡ r [ZMOD p]) (hrq : mq ≡ r [ZMOD q]) :
    computeCRT ipp (ofFactors ipp p q) mp mq = r := by
  obtain ⟨h0, h1⟩ := computeCRT_range h hpq hmp hmpp hmq
  obtain ⟨hp, hq⟩ := computeCRT_modEq h hpq hmp hmq
  have hmod : computeCRT ipp (ofFactors ipp p q) mp mq ≡ r [ZMOD ((p * q : ℕ) : ℤ)] := by
    have hcop : (p : ℤ).natAbs.Coprime (q : ℤ).natAbs := by simpa using hpq.coprime
    rw [Nat.cast_mul]
    exact (Int.modEq_and_modEq_iff_modEq_mul hcop).mp ⟨hp.trans hrp, hq.trans hrq⟩
  have heq := hmod.eq
  rwa [Int.emod_eq_of_lt h0 h1, Int.emod_eq_of_lt hr0 hr1] at heq

end

/-- **The two plaintexts of a unit are equal.** -/
theorem crtPlain_eq (hc : IsCoprime c (P.n : ℤ)) : crtPlain ipp P c = rawPlain ipp P c := by
  obtain ⟨hp0, hp1⟩ := factorPlain_range P.p_prime.pos (ofPair ipp P).hp c
  obtain ⟨hq0, -⟩ := factorPlain_range P.q_prime.pos (ofPair ipp P).hq c
  obtain ⟨hraw0, hraw1⟩ := @rawPlain_range ipp P c
  exact computeCRT_unique h P.oddPrimes hp0 hp1 hq0 hraw0 hraw1 (factorPlain_p h P hc)
    (factorPlain_q h P hc)

end

/-! ### Decrypting a vector -/

section Vector
variable {cs : List ℤ}

/-- What `decryptRAW` raises. -/
def lambdaPowers (p q : ℕ) (cs : List ℤ) : List Triple :=
  cs.map fun c => (c, ((Nat.lcm (p - 1) (q - 1) : ℕ) : ℤ), ((p * q : ℕ) : ℤ) * (p * q : ℕ))

/-- What `decryptCRT` raises for one of the two primes. -/
def factorPowers (a : ℕ) (cs : List ℤ) : List Triple :=
  cs.map fun c => (c % ((a : ℤ) * a), (a : ℤ) - 1, (a : ℤ) * a)

/-- The vectors that are handed over. -/
theorem vec_lambdaPowers (me : ModExp) (p q : ℕ) (cs : List ℤ) :
    me.vec (bases (lambdaPowers p q cs)) (exps (lambdaPowers p q cs)) (mods (lambdaPowers p q cs))
      = me.vec cs (List.replicate cs.length ((Nat.lcm (p - 1) (q - 1) : ℕ) : ℤ))
          (List.replicate cs.length (((p * q : ℕ) : ℤ) * (p * q : ℕ))) := by
  simp [lambdaPowers, Function.comp_def, List.map_const']

theorem vec_factorPowers (me : ModExp) (a : ℕ) (cs : List ℤ) :
    me.vec (bases (factorPowers a cs)) (exps (factorPowers a cs)) (mods (factorPowers a cs))
      = me.vec (cs.map (· % ((a : ℤ) * a))) (List.replicate cs.length ((a : ℤ) - 1))
          (List.replicate cs.length ((a : ℤ) * a)) := by
  simp [factorPowers, Function.comp_def, List.map_const']

/-- The calls of both ways of decrypting return the powers. -/
structure Served (me : ModExp) (p q : ℕ) (cs : List ℤ) : Prop where
  lambda : me.Serves (lambdaPowers p q cs)
  left : me.Serves (factorPowers p cs)
  right : me.Serves (factorPowers q cs)

section
variable {p q : ℕ} (hpq : OddPrimes p q)
include hpq

theorem lambdaPowers_admissible (hcs : ∀ c ∈ cs, UnitResidue (p * q) c) :
    ∀ t ∈ lambdaPowers p q cs, Admissible t.1 t.2.1 t.2.2 := by
  intro t ht
  obtain ⟨c, hc, rfl⟩ := List.mem_map.mp ht
  have hodd : Odd (((p * q : ℕ) : ℤ) * (p * q : ℕ)) := by exact_mod_cast hpq.n_odd.mul hpq.n_odd
  exact ⟨hodd, (hcs c hc).nonneg, (hcs c hc).lt, Int.natCast_nonneg _⟩

omit hpq in
theorem factorPowers_admissible {a : ℕ} (ha : 1 < a) (hodd : Odd a) :
    ∀ t ∈ factorPowers a cs, Admissible t.1 t.2.1 t.2.2 := by
  intro t ht
  obtain ⟨c, -, rfl⟩ := List.mem_map.mp ht
  have ha1 : (1 : ℤ) < a := by exact_mod_cast ha
  have hodd2 : Odd ((a : ℤ) * a) := by exact_mod_cast hodd.mul hodd
  have hexp : (0 : ℤ) ≤ a - 1 := by omega
  exact Admissible.of_emod (by nlinarith) hodd2 hexp c

/-- No exponent is longer than its modulus. -/
theorem lambdaPowers_short : ∀ t ∈ lambdaPowers p q cs, Short t := by
  intro t ht
  obtain ⟨c, -, rfl⟩ := List.mem_map.mp ht
  have hp := hpq.p_prime.pos
  have hq := hpq.q_prime.pos
  have hle : Nat.lcm (p - 1) (q - 1) ≤ p * q * (p * q) := calc
    Nat.lcm (p - 1) (q - 1) ≤ (p - 1) * (q - 1) := by
      refine Nat.le_of_dvd (Nat.mul_pos ?_ ?_) (Nat.lcm_dvd_mul _ _)
      · have := hpq.p_prime.one_lt
        omega
      · have := hpq.q_prime.one_lt
        omega
    _ ≤ p * q := Nat.mul_le_mul (Nat.sub_le _ _) (Nat.sub_le _ _)
    _ ≤ p * q * (p * q) := Nat.le_mul_of_pos_right _ (Nat.mul_pos hp hq)
  exact short_of_le (Int.natCast_nonneg _) (by exact_mod_cast hle)

omit hpq in
theorem factorPowers_short {a : ℕ} (ha : 1 < a) : ∀ t ∈ factorPowers a cs, Short t := by
  intro t ht
  obtain ⟨c, -, rfl⟩ := List.mem_map.mp ht
  have ha1 : (1 : ℤ) < a := by exact_mod_cast ha
  exact short_of_le (by omega) (by nlinarith)

/-- Fewer than `2 ^ 31` units are served. -/
theorem served_of_lawful (hme : me.Lawful Short) (hne : cs ≠ []) (hlen : cs.length < 2 ^ 31)
    (hcs : ∀ c ∈ cs, UnitResidue (p * q) c) : Served me p q cs := by
  have hcall : ∀ (f : ℤ → Triple) (m : ℤ), (∀ c, (f c).2.2 = m) →
      (∀ t ∈ cs.map f, Admissible t.1 t.2.1 t.2.2) → ModExp.Call m (cs.map f) := by
    intro f m hm hadm
    refine ⟨by simpa using hne, by rwa [List.length_map], fun t ht => ?_, hadm⟩
    obtain ⟨c, -, rfl⟩ := List.mem_map.mp ht
    exact hm c
  exact {
    lambda := hme.vec_exact _ _ (hcall _ _ (fun _ => rfl) (lambdaPowers_admissible hpq hcs))
      (lambdaPowers_short hpq)
    left := hme.vec_exact _ _ (hcall _ _ (fun _ => rfl)
      (factorPowers_admissible hpq.p_prime.one_lt hpq.p_odd))
      (factorPowers_short hpq.p_prime.one_lt)
    right := hme.vec_exact _ _ (hcall _ _ (fun _ => rfl)
      (factorPowers_admissible hpq.q_prime.one_lt hpq.q_odd))
      (factorPowers_short hpq.q_prime.one_lt) }

end

include h

section
variable {p q : ℕ} (hpq : OddPrimes p q) (hs : Served me p q cs) (hlen : cs.length < 2 ^ 31)
  (hcs : ∀ c ∈ cs, UnitResidue (p * q) c)
include hpq hs hlen hcs

theorem decryptRAW_factors :
    decryptRAW ipp me (ofFactors ipp p q) cs.length cs = .ok (cs.map (rawFactors ipp p q)) := by
  have hn : (1 : ℤ) < (p * q : ℕ) := by exact_mod_cast hpq.one_lt_n
  rw [decryptRAW, show (ofFactors ipp p q).lambda = (Nat.lcm (p - 1) (q - 1) : ℕ) from rfl,
    show (ofFactors ipp p q).nsquare = (p * q : ℕ) * (p * q : ℕ) from rfl,
    ← vec_lambdaPowers, hs.lambda, Result.bind_ok, intLoop_ok hlen, Result.bind_ok]
  refine (mapM_elemAt
    (fun r => mod ipp (mul ipp (computeLfun ipp r (p * q : ℕ)) (ofFactors ipp p q).x) (p * q : ℕ))
    (by simp [lambdaPowers])).trans ?_
  rw [powers, lambdaPowers, List.map_map, List.map_map]
  refine congrArg Except.ok (List.map_congr_left fun c hc => ?_)
  have hone : 1 ≤ powMod c (Nat.lcm (p - 1) (q - 1) : ℕ) ((p * q : ℕ) * (p * q : ℕ)) :=
    one_le_powMod (by nlinarith) (isCoprime_sq (hcs c hc).coprime)
  show mod ipp (mul ipp (computeLfun ipp (powMod c _ _) _) _) _ = _
  rw [computeLfun_eq h (by omega : ((p * q : ℕ) : ℤ) ≠ 0) hone, mul_eq h,
    mod_eq h _ (by omega)]
  rfl

end

/-- The reduced bases, for one of the two primes. -/
theorem reduce_eq {a : ℕ} (ha : 1 < a) (cs : List ℤ) :
    ((List.range cs.length).mapM fun i => do
        let c ← elemAt cs i
        pure (mod ipp c (a * a)) : Result (List ℤ)) = .ok (cs.map (· % ((a : ℤ) * a))) := by
  have ha1 : (1 : ℤ) < a := by exact_mod_cast ha
  have hsq : (0 : ℤ) < a * a := by nlinarith
  rw [mapM_elemAt (fun c => mod ipp c (a * a)) rfl]
  exact congrArg Except.ok (List.map_congr_left fun c _ => mod_eq h c hsq)

/-- The plaintext modulo one of the two primes. -/
theorem factor_eq {a : ℕ} (ha : 1 < a) (inv : ℤ) {c : ℤ} (hc : IsCoprime c (a : ℤ)) :
    mod ipp (mul ipp (computeLfun ipp (powMod (c % (a * a)) ((a : ℤ) - 1) (a * a)) a) inv) a
      = factorPlain a inv c := by
  have ha1 : (1 : ℤ) < a := by exact_mod_cast ha
  have hred : c % (a * a) ≡ c [ZMOD (a : ℤ) ^ 2] := by
    rw [sq]
    exact Int.mod_modEq _ _
  have hone : 1 ≤ powMod (c % (a * a)) ((a : ℤ) - 1) (a * a) :=
    one_le_powMod (by nlinarith) (isCoprime_sq (isCoprime_of_modEq_sq hc hred))
  rw [computeLfun_eq h (by omega) hone, mul_eq h, mod_eq h _ (by omega)]
  rfl

theorem decryptCRT_factors {p q : ℕ} (hpq : OddPrimes p q) (hs : Served me p q cs)
    (hlen : cs.length < 2 ^ 31) (hcs : ∀ c ∈ cs, UnitResidue (p * q) c) :
    decryptCRT ipp me (ofFactors ipp p q) cs.length cs = .ok (cs.map (crtFactors ipp p q)) := by
  have hbp := reduce_eq h hpq.p_prime.one_lt cs
  have hbq := reduce_eq h hpq.q_prime.one_lt cs
  have hrp := (vec_factorPowers me p cs).symm.trans hs.left
  have hrq := (vec_factorPowers me q cs).symm.trans hs.right
  rw [decryptCRT, show (ofFactors ipp p q).psquare = p * p from rfl,
    show (ofFactors ipp p q).qsquare = q * q from rfl,
    show (ofFactors ipp p q).pminusone = p - 1 from rfl,
    show (ofFactors ipp p q).qminusone = q - 1 from rfl]
  simp only [intLoop_ok hlen, hbp, hbq, hrp, hrq, Result.bind_ok]
  refine Vec.mapM_range_eq_ok (by simp) fun i hi => ?_
  have hi' : i < cs.length := by simpa using hi
  have hc : IsCoprime cs[i] ((p * q : ℕ) : ℤ) := (hcs _ (List.getElem_mem hi')).coprime
  rw [Nat.cast_mul] at hc
  rw [elemAt_eq (by simpa [factorPowers] using hi'), elemAt_eq (by simpa [factorPowers] using hi')]
  simp only [factorPowers, List.getElem_map]
  have hdp := factor_eq h hpq.p_prime.one_lt (ofFactors ipp p q).hp
    (IsCoprime.of_mul_right_left hc)
  have hdq := factor_eq h hpq.q_prime.one_lt (ofFactors ipp p q).hq
    (IsCoprime.of_mul_right_right hc)
  show Except.ok (computeCRT ipp (ofFactors ipp p q)
    (mod ipp (mul ipp (computeLfun ipp _ p) _) p)
    (mod ipp (mul ipp (computeLfun ipp _ q) _) q)) = _
  rw [hdp, hdq]
  rfl

section
variable (hs : Served me P.p P.q cs) (hlen : cs.length < 2 ^ 31)
  (hcs : ∀ c ∈ cs, UnitResidue P.n c)
include hs hlen hcs

theorem decryptRAW_eq :
    decryptRAW ipp me (ofPair ipp P) cs.length cs = .ok (cs.map (rawPlain ipp P)) :=
  decryptRAW_factors h P.oddPrimes hs hlen hcs

/-- Both ways of decrypting a vector of units write the same plaintexts. -/
theorem decryptCRT_eq :
    decryptCRT ipp me (ofPair ipp P) cs.length cs = .ok (cs.map (rawPlain ipp P)) := by
  rw [show decryptCRT ipp me (ofPair ipp P) cs.length cs = .ok (cs.map (crtPlain ipp P)) from
    decryptCRT_factors h P.oddPrimes hs hlen hcs]
  refine congrArg Except.ok (List.map_congr_left fun c hc => ?_)
  exact crtPlain_eq h P (hcs c hc).coprime

end

end Vector

/-! ### What has been decrypted -/

/-- A vector that is decrypted has been counted in an `int`. -/
theorem lt_of_decryptRAW {sk : PrivateKey} {n : ℕ} {cs ms : List ℤ}
    (hok : decryptRAW ipp me sk n cs = .ok ms) : n < 2 ^ 31 := by
  obtain ⟨res, -, hok⟩ := Result.of_bind_ok hok
  exact lt_of_intLoop hok

theorem lt_of_decryptCRT {sk : PrivateKey} {n : ℕ} {cs ms : List ℤ}
    (hok : decryptCRT ipp me sk n cs = .ok ms) : n < 2 ^ 31 := lt_of_intLoop hok

theorem length_of_decryptRAW {sk : PrivateKey} {n : ℕ} {cs ms : List ℤ}
    (hok : decryptRAW ipp me sk n cs = .ok ms) : ms.length = n := by
  obtain ⟨res, -, hok⟩ := Result.of_bind_ok hok
  obtain ⟨_, -, hok⟩ := Result.of_bind_ok hok
  rw [Vec.length_of_mapM_ok hok, List.length_range]

theorem length_of_decryptCRT {sk : PrivateKey} {n : ℕ} {cs ms : List ℤ}
    (hok : decryptCRT ipp me sk n cs = .ok ms) : ms.length = n := by
  iterate 6 obtain ⟨_, -, hok⟩ := Result.of_bind_ok hok
  rw [Vec.length_of_mapM_ok hok, List.length_range]

/-- `decrypt` returns what one of the two has written. -/
theorem of_decrypt {sk : PrivateKey} {ct : CipherText} {pt : PlainText}
    (hok : decrypt ipp me sk ct = .ok pt) : ∃ ms, pt = BaseText.ofVec ms ∧
      (decryptCRT ipp me sk ct.size ct.texts = .ok ms ∨
        decryptRAW ipp me sk ct.size ct.texts = .ok ms) := by
  obtain ⟨_, -, hok⟩ := Result.of_bind_ok hok
  obtain ⟨pk, -, hok⟩ := Result.of_bind_ok hok
  obtain ⟨_, -, hok⟩ := Result.of_bind_ok hok
  obtain ⟨_, -, hok⟩ := Result.of_bind_ok hok
  by_cases hcrt : sk.enableCrt = true
  · rw [if_pos hcrt] at hok
    obtain ⟨ms, hms, hpt⟩ := Result.of_bind_ok hok
    exact ⟨ms, (Except.ok.inj hpt).symm, .inl hms⟩
  · rw [if_neg hcrt] at hok
    obtain ⟨ms, hms, hpt⟩ := Result.of_bind_ok hok
    exact ⟨ms, (Except.ok.inj hpt).symm, .inr hms⟩

theorem lt_of_decrypt {sk : PrivateKey} {ct : CipherText} {pt : PlainText}
    (hok : decrypt ipp me sk ct = .ok pt) : ct.size < 2 ^ 31 := by
  obtain ⟨ms, -, hms | hms⟩ := of_decrypt hok
  · exact lt_of_decryptCRT hms
  · exact lt_of_decryptRAW hms

/-- There are as many plaintexts as ciphertexts. -/
theorem size_of_decrypt {sk : PrivateKey} {ct : CipherText} {pt : PlainText}
    (hok : decrypt ipp me sk ct = .ok pt) : pt.size = ct.size := by
  obtain ⟨ms, rfl, hms | hms⟩ := of_decrypt hok
  · exact length_of_decryptCRT hms
  · exact length_of_decryptRAW hms

/-- What it asked for has come back. -/
theorem vec_of_decryptRAW {p q : ℕ} {cs ms : List ℤ}
    (hok : decryptRAW ipp me (ofFactors ipp p q) cs.length cs = .ok ms) :
    ∃ rs, me.vec (bases (lambdaPowers p q cs)) (exps (lambdaPowers p q cs))
      (mods (lambdaPowers p q cs)) = .ok rs := by
  obtain ⟨rs, hvec, -⟩ := Result.of_bind_ok hok
  exact ⟨rs, (vec_lambdaPowers me p q cs).trans hvec⟩

theorem vec_of_decryptCRT (h : ipp.Lawful) {p q : ℕ} (hpq : OddPrimes p q) {cs ms : List ℤ}
    (hok : decryptCRT ipp me (ofFactors ipp p q) cs.length cs = .ok ms) :
    (∃ rs, me.vec (bases (factorPowers p cs)) (exps (factorPowers p cs))
        (mods (factorPowers p cs)) = .ok rs) ∧
      ∃ rs, me.vec (bases (factorPowers q cs)) (exps (factorPowers q cs))
        (mods (factorPowers q cs)) = .ok rs := by
  obtain ⟨_, -, hok⟩ := Result.of_bind_ok hok
  obtain ⟨bp, hbp, hok⟩ := Result.of_bind_ok hok
  obtain ⟨bq, hbq, hok⟩ := Result.of_bind_ok hok
  obtain ⟨rp, hrp, hok⟩ := Result.of_bind_ok hok
  obtain ⟨rq, hrq, -⟩ := Result.of_bind_ok hok
  cases hbp.symm.trans (reduce_eq h hpq.p_prime.one_lt cs)
  cases hbq.symm.trans (reduce_eq h hpq.q_prime.one_lt cs)
  exact ⟨⟨rp, (vec_factorPowers me p cs).trans hrp⟩, rq, (vec_factorPowers me q cs).trans hrq⟩

/-- Where both ways agree, `decrypt` does not read the choice between them. -/
theorem decrypt_enableCRT {sk : PrivateKey} {ct : CipherText}
    (hct : decryptCRT ipp me sk ct.getSize ct.getTexts
      = decryptRAW ipp me sk ct.getSize ct.getTexts) (crt : Bool) :
    decrypt ipp me (sk.enableCRT crt) ct = decrypt ipp me (sk.enableCRT false) ct := by
  cases crt with
  | false => rfl
  | true =>
      have hct' : decryptCRT ipp me (sk.enableCRT true) ct.getSize ct.getTexts
          = decryptRAW ipp me (sk.enableCRT false) ct.getSize ct.getTexts := hct
      have hon : (sk.enableCRT true).enableCrt = true := rfl
      have hoff : (sk.enableCRT false).enableCrt = false := rfl
      simp only [decrypt, hon, hoff, if_true, hct', Bool.false_eq_true, if_false]
      rfl

/-! ### Keys from either constructor -/

/-- How a private key is built from two primes. -/
inductive Built (ipp : Ipp) (me : ModExp) (p q : ℕ) : PrivateKey → Prop
  | publicKey {pk : PublicKey} {sk : PrivateKey} :
      pk.For (p * q : ℕ) → ofPublicKey ipp me pk p q = .ok sk → Built ipp me p q sk
  | modulus {sk : PrivateKey} :
      ofModulus ipp me (p * q : ℕ) p q = .ok sk → Built ipp me p q sk

section
include h hme
variable {p q : ℕ} (hp : p.Prime) (hq : q.Prime) (hne : p ≠ q)
  (hcop : Nat.gcd (p * q) ((p - 1) * (q - 1)) = 1)
include hp hq hne hcop

theorem Built.eq_ofPair {sk : PrivateKey} (hsk : Built ipp me p q sk) :
    sk = ofPair ipp (PrimePair.ofPrimes hp hq hne hcop) := by
  cases hsk with
  | publicKey hpk hok =>
      rw [ofPublicKey_eq h hme hpk hp hq hne hcop] at hok
      exact (Except.ok.inj hok).symm
  | modulus hok =>
      rw [ofModulus_eq h hme hp hq hne hcop] at hok
      exact (Except.ok.inj hok).symm

end

end PrivateKey

end Ipcl
