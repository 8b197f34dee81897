/-
The constructors build the key the primes determine.

`PrivateKey.ofPair` writes the fields of a key down once, as functions of the
pair.  Both constructors are shown to return it, whichever order the primes come
in; what they compute on the way is that the logarithm of the generator modulo
`a ^ 2` at an exponent `e` is `e * (n / a)` modulo `a`, which is `computeHfun`'s
argument for a prime `a` and the argument of `x` for `n` itself.
-/
import Ipcl.PriKey
import Ipcl.Spec.PrimePair

namespace Ipcl

open BigNumber Paillier

/-- What the constructors read of a public key for the modulus `n`. -/
structure PublicKey.For (pk : PublicKey) (n : ℤ) : Prop where
  n_eq : pk.n = n
  nsquare_eq : pk.nsquare = n * n
  g_eq : pk.g = n + 1

/-- A residue prime to the modulus has powers that are not zero. -/
theorem one_le_powMod {b e m : ℤ} (hm : 1 < m) (hb : IsCoprime b m) : 1 ≤ powMod b e m := by
  have h0 : 0 ≤ powMod b e m := powMod_nonneg (by omega)
  have hne : powMod b e m ≠ 0 := by
    intro hc
    have hdvd : m ∣ b ^ e.toNat := Int.dvd_of_emod_eq_zero hc
    have hpow : IsCoprime (b ^ e.toNat) m := hb.pow_left
    have hunit : IsUnit m := hpow.isUnit_of_dvd' hdvd dvd_rfl
    rcases Int.isUnit_iff.mp hunit with h | h <;> omega
  omega

theorem isCoprime_sq {b m : ℤ} (hb : IsCoprime b m) : IsCoprime b (m * m) := hb.mul_right hb

namespace PrivateKey

/-- The key a pair of primes determines. -/
def ofPair (ipp : Ipp) (P : PrimePair) : PrivateKey where
  isInitialized := true
  enableCrt := true
  n := P.n
  nsquare := P.n * P.n
  g := P.n + 1
  p := P.p
  q := P.q
  pminusone := P.p - 1
  qminusone := P.q - 1
  psquare := P.p * P.p
  qsquare := P.q * P.q
  pinverse := inverseMul ipp P.q P.p
  hp := inverseMul ipp P.p (((P.p - 1) * P.q % P.p : ℕ) : ℤ)
  hq := inverseMul ipp P.q (((P.q - 1) * P.p % P.q : ℕ) : ℤ)
  lambda := P.lam
  x := inverseMul ipp P.n ((P.lam % P.n : ℕ) : ℤ)

variable {ipp : Ipp} {me : ModExp} (h : ipp.Lawful) (hme : me.OneExact)

/-! ### The logarithm of the generator -/

section
include h

theorem sub32_one {a : ℤ} (ha : 0 ≤ a) : sub32 ipp a 1 = a - 1 := by
  simpa using sub32_eq_of_nonneg h ha 1

theorem computeLfun_eq {r a : ℤ} (ha : a ≠ 0) (hr : 1 ≤ r) :
    computeLfun ipp r a = Residue.log a r := by
  rw [computeLfun, sub32_one h (by omega), div_eq h _ ha,
    Int.tdiv_eq_ediv_of_nonneg (by omega)]
  rfl

theorem computeLfun_powMod {a t : ℕ} {b e : ℤ} (ha : 1 < a)
    (hb : b ≡ 1 + a * t [ZMOD (a : ℤ) ^ 2]) :
    computeLfun ipp (powMod b e (a * a)) a = ((e.toNat * t % a : ℕ) : ℤ) := by
  have hpow : powMod b e (a * a) ≡ 1 + a * (e.toNat * t : ℕ) [ZMOD (a : ℤ) ^ 2] := by
    rw [← sq]
    push_cast
    exact (powMod_modEq b e _).trans ((hb.pow _).trans (Residue.one_add_mul_pow _ _ _))
  have hcop : IsCoprime b (a : ℤ) := isCoprime_of_modEq_sq (isCoprime_one_add_mul a t) hb
  have ha1 : (1 : ℤ) < a := by exact_mod_cast ha
  have hone : 1 ≤ powMod b e (a * a) := one_le_powMod (by nlinarith) (isCoprime_sq hcop)
  have hlt : powMod b e (a * a) < (a : ℤ) ^ 2 := by
    rw [sq]
    exact powMod_lt (by nlinarith)
  rw [computeLfun_eq h (by omega) hone]
  have hmod : Residue.log a (powMod b e (a * a)) ≡ (e.toNat * t : ℕ) [ZMOD a] :=
    Residue.log_modEq (by omega) hpow
  rw [Int.natCast_mod, ← hmod.eq]
  exact (Int.emod_eq_of_lt (Residue.log_nonneg (by omega) hone)
    (Residue.log_lt (by omega) hlt)).symm

theorem lcm_eq {a b : ℕ} (ha : 0 < a) (hb : 0 < b) : lcm ipp a b = (Nat.lcm a b : ℕ) := by
  have hpos : (0 : ℤ) < (Nat.gcd a b : ℕ) := by exact_mod_cast Nat.gcd_pos_of_pos_left b ha
  rw [lcm, mul_eq h, gcd_eq h (by exact_mod_cast ha) (by exact_mod_cast hb),
    Int.gcd_natCast_natCast, div_eq h _ hpos.ne', ← Nat.cast_mul,
    Int.tdiv_eq_ediv_of_nonneg (Int.natCast_nonneg _)]
  rfl

include hme

/-- The number `computeHfun` inverts for a factor `a` of `n`. -/
theorem hfunArg_eq {a b : ℕ} (ha : 1 < a) (hodd : Odd a) :
    hfunArg ipp me ((a * b : ℕ) + 1) a (a * a) = .ok (((a - 1) * b % a : ℕ) : ℤ) := by
  have ha1 : (1 : ℤ) < a := by exact_mod_cast ha
  have hsq : (0 : ℤ) < a * a := by nlinarith
  have hodd2 : Odd ((a : ℤ) * a) := by exact_mod_cast hodd.mul hodd
  have hbase : (((a * b : ℕ) : ℤ) + 1) % (a * a) ≡ 1 + a * b [ZMOD (a : ℤ) ^ 2] := by
    rw [sq]
    refine (Int.mod_modEq _ _).trans ?_
    push_cast
    rw [add_comm]
  have hexp : ((a : ℤ) - 1).toNat = a - 1 := by omega
  simp only [hfunArg, sub32_one h (by omega : (0 : ℤ) ≤ a), mod_eq h _ hsq]
  rw [hme.one_exact _ _ _ (Admissible.of_emod hsq hodd2 (by omega) _)]
  have hL := computeLfun_powMod h (e := (a : ℤ) - 1) ha hbase
  rw [hexp] at hL
  exact congrArg Except.ok hL

theorem computeHfun_eq {a b : ℕ} (ha : 1 < a) (hodd : Odd a) :
    computeHfun ipp me ((a * b : ℕ) + 1) a (a * a)
      = .ok (inverseMul ipp a (((a - 1) * b % a : ℕ) : ℤ)) := by
  rw [computeHfun, hfunArg_eq h hme ha hodd]
  rfl

/-- The number the initialiser of `x` inverts. -/
theorem xArg_eq {n l : ℕ} (hn : 1 < n) (hodd : Odd n) :
    xArg ipp me n (n + 1) l (n * n) = .ok ((l % n : ℕ) : ℤ) := by
  have hn1 : (1 : ℤ) < n := by exact_mod_cast hn
  have hodd2 : Odd ((n : ℤ) * n) := by exact_mod_cast hodd.mul hodd
  have hadm : Admissible ((n : ℤ) + 1) l (n * n) := by
    refine ⟨hodd2, by omega, ?_, Int.natCast_nonneg l⟩
    have hn3 : (3 : ℤ) ≤ n := by
      obtain ⟨k, hk⟩ := hodd
      omega
    nlinarith
  have hbase : (n : ℤ) + 1 ≡ 1 + n * (1 : ℕ) [ZMOD (n : ℤ) ^ 2] := by
    have heq : (n : ℤ) + 1 = 1 + n * (1 : ℕ) := by push_cast; ring
    rw [heq]
  have hL := computeLfun_powMod h (e := (l : ℤ)) hn hbase
  rw [Int.toNat_natCast, Nat.mul_one] at hL
  rw [xArg, hme.one_exact _ _ _ hadm]
  exact congrArg Except.ok hL

end

/-! ### The constructors -/

section Ctor
include h

/-- The initialisers of `p` and `q` sort the primes. -/
theorem sort_primes (a b : ℕ) :
    (if lt ipp b a then (b : ℤ) else a) = (min a b : ℕ) ∧
      (if lt ipp b a then (a : ℤ) else b) = (max a b : ℕ) := by
  rw [lt_of_nonneg h (by omega) (by omega)]
  simp only [decide_eq_true_eq]
  constructor <;> split_ifs <;> omega

theorem mul_factors (p q : ℕ) : mul ipp p q = (p * q : ℕ) := by
  rw [mul_eq h]
  exact (Nat.cast_mul _ _).symm

section
variable {p q : ℕ} (hpq : OddPrimes p q)
include hpq

theorem ne_factors : ne ipp p q = true := by
  rw [ne_of_nonneg h (by omega) (by omega), decide_eq_true_eq]
  exact_mod_cast hpq.lt.ne

theorem lcm_factors : lcm ipp ((p : ℤ) - 1) ((q : ℤ) - 1) = (Nat.lcm (p - 1) (q - 1) : ℕ) := by
  have hp := hpq.two_lt
  have hq := hpq.lt
  have hpc : ((p : ℤ) - 1) = ((p - 1 : ℕ) : ℤ) := by omega
  have hqc : ((q : ℤ) - 1) = ((q - 1 : ℕ) : ℤ) := by omega
  rw [hpc, hqc, lcm_eq h (by omega) (by omega)]

include hme

theorem computeHfun_left :
    computeHfun ipp me ((p * q : ℕ) + 1) p (p * p)
      = .ok (inverseMul ipp p (((p - 1) * q % p : ℕ) : ℤ)) :=
  computeHfun_eq h hme hpq.p_prime.one_lt hpq.p_odd

theorem computeHfun_right :
    computeHfun ipp me ((p * q : ℕ) + 1) q (q * q)
      = .ok (inverseMul ipp q (((q - 1) * p % q : ℕ) : ℤ)) := by
  rw [Nat.mul_comm p q]
  exact computeHfun_eq h hme hpq.q_prime.one_lt hpq.q_odd

theorem xArg_factors :
    xArg ipp me (p * q : ℕ) ((p * q : ℕ) + 1) (Nat.lcm (p - 1) (q - 1) : ℕ)
        ((p * q : ℕ) * (p * q : ℕ))
      = .ok ((Nat.lcm (p - 1) (q - 1) % (p * q) : ℕ) : ℤ) :=
  xArg_eq h hme hpq.one_lt_n hpq.n_odd

end

/-! ### The two constructors -/

/-- What the constructor from a modulus computes of a public key. -/
def publicPart (ipp : Ipp) (n : ℤ) : PublicKey where
  isInitialized := true
  n := n
  g := add32 ipp n 1
  nsquare := mul ipp n n
  bits := 0
  dwords := 0
  hs := 0
  randbits := 0
  djnEnabled := false
  r := []
  testv := false

omit h in
/-- From there on it is the constructor from a public key. -/
theorem ofModulus_eq_ofPublicKey (n p q : ℤ) :
    ofModulus ipp me n p q = ofPublicKey ipp me (publicPart ipp n) p q := rfl

theorem publicPart_for (n : ℤ) : (publicPart ipp n).For n := ⟨rfl, mul_eq h n n, add32_eq h n 1⟩

omit h in
/-- A constructor that returns has computed the three inverses' arguments, and its tests have
passed. -/
theorem ofPublicKey_ok {pk : PublicKey} {p q : ℤ} {sk : PrivateKey}
    (hok : ofPublicKey ipp me pk p q = .ok sk) :
    ((∃ v, computeHfun ipp me sk.g sk.p sk.psquare = .ok v) ∧
      (∃ v, computeHfun ipp me sk.g sk.q sk.qsquare = .ok v) ∧
        ∃ v, xArg ipp me sk.n sk.g sk.lambda sk.nsquare = .ok v) ∧
      eq ipp (mul ipp (if lt ipp q p then q else p) (if lt ipp q p then p else q)) pk.n = true ∧
        ne ipp (if lt ipp q p then q else p) (if lt ipp q p then p else q) = true := by
  obtain ⟨hp, hhp, hok⟩ := Result.of_bind_ok hok
  obtain ⟨hq, hhq, hok⟩ := Result.of_bind_ok hok
  obtain ⟨lx, hlx, hok⟩ := Result.of_bind_ok hok
  obtain ⟨_, hprod, hok⟩ := Result.of_bind_ok hok
  obtain ⟨_, hne, hok⟩ := Result.of_bind_ok hok
  cases hok
  exact ⟨⟨⟨hp, hhp⟩, ⟨hq, hhq⟩, ⟨lx, hlx⟩⟩, ok_of_errorCheck hprod, ok_of_errorCheck hne⟩

/-! ### Two odd primes -/

/-- The key two odd primes determine, the smaller one first. -/
def ofFactors (ipp : Ipp) (p q : ℕ) : PrivateKey where
  isInitialized := true
  enableCrt := true
  n := (p * q : ℕ)
  nsquare := (p * q : ℕ) * (p * q : ℕ)
  g := (p * q : ℕ) + 1
  p := p
  q := q
  pminusone := p - 1
  qminusone := q - 1
  psquare := p * p
  qsquare := q * q
  pinverse := inverseMul ipp q p
  hp := inverseMul ipp p (((p - 1) * q % p : ℕ) : ℤ)
  hq := inverseMul ipp q (((q - 1) * p % q : ℕ) : ℤ)
  lambda := (Nat.lcm (p - 1) (q - 1) : ℕ)
  x := inverseMul ipp (p * q : ℕ) ((Nat.lcm (p - 1) (q - 1) % (p * q) : ℕ) : ℤ)

section
variable {a b : ℕ} (ha : a.Prime) (hb : b.Prime) (ha2 : a ≠ 2) (hb2 : b ≠ 2) (hne : a ≠ b)
include hme ha hb ha2 hb2 hne

/-- A constructor that is given the product returns the key, whether or not it can decrypt. -/
theorem ofPublicKey_factors {pk : PublicKey} (hpk : pk.For (a * b : ℕ)) :
    ofPublicKey ipp me pk a b = .ok (ofFactors ipp (min a b) (max a b)) := by
  obtain ⟨hp, hq⟩ := sort_primes h a b
  have hpq := OddPrimes.sorted ha hb ha2 hb2 hne
  rw [← min_mul_max a b] at hpk
  generalize min a b = p at hp hpq hpk ⊢
  generalize max a b = q at hq hpq hpk ⊢
  have hn : eq ipp ((p * q : ℕ) : ℤ) (p * q : ℕ) = true := by
    rw [eq_of_nonneg h (by omega) (by omega), decide_eq_true rfl]
  simp only [ofPublicKey, hp, hq, hpk.n_eq, hpk.nsquare_eq, hpk.g_eq, hn,
    sub32_one h (Int.natCast_nonneg p), sub32_one h (Int.natCast_nonneg q),
    mul_eq h (p : ℤ) p, mul_eq h (q : ℤ) q, computeHfun_left h hme hpq,
    computeHfun_right h hme hpq, lcm_factors h hpq, xArg_factors h hme hpq, mul_factors h p q,
    ne_factors h hpq]
  rfl

theorem ofModulus_factors :
    ofModulus ipp me (a * b : ℕ) a b = .ok (ofFactors ipp (min a b) (max a b)) := by
  rw [ofModulus_eq_ofPublicKey]
  exact ofPublicKey_factors h hme ha hb ha2 hb2 hne (publicPart_for h _)

end

/-! ### A pair -/

section
variable (P : PrimePair)

theorem p_mul_q : mul ipp P.p P.q = P.n := mul_factors h P.p P.q

theorem lcm_pred : lcm ipp ((P.p : ℤ) - 1) ((P.q : ℤ) - 1) = P.lam := lcm_factors h P.oddPrimes

include hme

theorem computeHfun_p :
    computeHfun ipp me (P.n + 1) P.p (P.p * P.p)
      = .ok (inverseMul ipp P.p (((P.p - 1) * P.q % P.p : ℕ) : ℤ)) :=
  computeHfun_left h hme P.oddPrimes

theorem computeHfun_q :
    computeHfun ipp me (P.n + 1) P.q (P.q * P.q)
      = .ok (inverseMul ipp P.q (((P.q - 1) * P.p % P.q : ℕ) : ℤ)) :=
  computeHfun_right h hme P.oddPrimes

theorem xArg_pair :
    xArg ipp me P.n (P.n + 1) P.lam (P.n * P.n) = .ok ((P.lam % P.n : ℕ) : ℤ) :=
  xArg_factors h hme P.oddPrimes

end

section
variable {a b : ℕ}
include hme

theorem ofModulus_eq (ha : a.Prime) (hb : b.Prime) (hne : a ≠ b)
    (hcop : (a * b).Coprime ((a - 1) * (b - 1))) :
    ofModulus ipp me (a * b : ℕ) a b
      = .ok (ofPair ipp (PrimePair.ofPrimes ha hb hne hcop)) := by
  obtain ⟨ha2, hb2⟩ := PrimePair.ne_two ha hb hne hcop
  exact ofModulus_factors h hme ha hb ha2 hb2 hne

theorem ofPublicKey_eq {pk : PublicKey} (hpk : pk.For (a * b : ℕ)) (ha : a.Prime)
    (hb : b.Prime) (hne : a ≠ b) (hcop : (a * b).Coprime ((a - 1) * (b - 1))) :
    ofPublicKey ipp me pk a b = .ok (ofPair ipp (PrimePair.ofPrimes ha hb hne hcop)) := by
  obtain ⟨ha2, hb2⟩ := PrimePair.ne_two ha hb hne hcop
  exact ofPublicKey_factors h hme ha hb ha2 hb2 hne hpk

end

end Ctor

end PrivateKey

end Ipcl
