/-
What the constructors let through.

A constructor compares the product of the primes with the modulus and the primes with
each other.  Its four inverses are taken before that and their statuses dropped, so it
is left to the two tests to imply that the inverses exist.

Three of them do exist: the two logarithms modulo `p ^ 2` and `q ^ 2` are prime to `p`
and `q`, and decrypting modulo the primes needs no other, so that way is right for every
key that is returned.  The fourth is that of `lambda` modulo `n`.  When the smaller prime
divides the predecessor of the larger one it divides `lambda` too, no inverse exists, and
whatever is stored in its place, every plaintext read modulo `n ^ 2` is a multiple of
that prime.
-/
import Ipcl.Proofs.Homomorphic

namespace Ipcl

open BigNumber Paillier

namespace PrivateKey

variable {ipp : Ipp} {me : ModExp}

/-- What one of the constructors returns for a modulus, or a public key that has it. -/
inductive Constructed (ipp : Ipp) (me : ModExp) (n : ℤ) (p q : ℕ) : PrivateKey → Prop
  | publicKey {pk : PublicKey} {sk : PrivateKey} :
      pk.For n → ofPublicKey ipp me pk p q = .ok sk → Constructed ipp me n p q sk
  | modulus {sk : PrivateKey} : ofModulus ipp me n p q = .ok sk → Constructed ipp me n p q sk

/-- The key reads every encryption under the modulus. -/
def Decrypts (ipp : Ipp) (me : ModExp) (sk : PrivateKey) (n : ℤ) (crt : Bool) : Prop :=
  ∀ (pk : PublicKey) (m r : ℤ), pk.For n → 0 ≤ m → m < n → IsCoprime r n →
    decrypt ipp me (sk.enableCRT crt)
      (CipherText.ofNumber pk ((1 + n * m) * r ^ n.toNat % (n * n))) = .ok (BaseText.ofVec [m])

/-- Every key a constructor returns decrypts in both modes. -/
def Sound (ipp : Ipp) (me : ModExp) (n : ℤ) (p q : ℕ) : Prop :=
  ∀ sk, Constructed ipp me n p q sk →
    Decrypts ipp me sk n true ∧ Decrypts ipp me sk n false

/-! ### The tests -/

section
variable (h : ipp.Lawful) {n : ℤ} {a b : ℕ}
include h

/-- The tests tell that the modulus is the product and the primes are different. -/
theorem of_checks (hn : 0 < n)
    (hprod : eq ipp (mul ipp (if lt ipp b a then (b : ℤ) else a)
      (if lt ipp b a then (a : ℤ) else b)) n = true)
    (hne : ne ipp (if lt ipp b a then (b : ℤ) else a)
      (if lt ipp b a then (a : ℤ) else b) = true) :
    n = (a * b : ℕ) ∧ a ≠ b := by
  obtain ⟨hp, hq⟩ := sort_primes h a b
  rw [hp, hq] at hprod hne
  rw [mul_factors h, min_mul_max, eq_of_nonneg h (by omega) hn.le, decide_eq_true_eq] at hprod
  rw [ne_of_nonneg h (by omega) (by omega), decide_eq_true_eq] at hne
  refine ⟨hprod.symm, fun hab => hne ?_⟩
  rw [hab, min_self, max_self]

theorem Constructed.checked (hn : 0 < n) {sk : PrivateKey} (hsk : Constructed ipp me n a b sk) :
    n = (a * b : ℕ) ∧ a ≠ b := by
  cases hsk with
  | publicKey hpk hok =>
      obtain ⟨-, hprod, hne⟩ := ofPublicKey_ok hok
      rw [hpk.n_eq] at hprod
      exact of_checks h hn hprod hne
  | modulus hok =>
      rw [ofModulus_eq_ofPublicKey] at hok
      obtain ⟨-, hprod, hne⟩ := ofPublicKey_ok hok
      exact of_checks h hn hprod hne

variable (hme : me.OneExact) (ha : a.Prime) (hb : b.Prime) (ha2 : a ≠ 2) (hb2 : b ≠ 2)
include hme ha hb ha2 hb2

/-- What they let through is the key of the primes. -/
theorem Constructed.eq_ofFactors (hne : a ≠ b) {sk : PrivateKey}
    (hsk : Constructed ipp me (a * b : ℕ) a b sk) : sk = ofFactors ipp (min a b) (max a b) := by
  cases hsk with
  | publicKey hpk hok =>
      rw [ofPublicKey_factors h hme ha hb ha2 hb2 hne hpk] at hok
      exact (Except.ok.inj hok).symm
  | modulus hok =>
      rw [ofModulus_factors h hme ha hb ha2 hb2 hne] at hok
      exact (Except.ok.inj hok).symm

end

/-! ### What the key reads -/

/-- The plaintext modulo a factor of the modulus. -/
theorem factorPlain_of_encrypts {a b : ℕ} (ha : a.Prime) {inv c m : ℤ}
    (hinv : ((a - 1 : ℕ) : ℤ) * b * inv ≡ 1 [ZMOD a]) (hc : Encrypts (a * b) c m) :
    factorPlain a inv c ≡ m [ZMOD a] := by
  have hca : IsCoprime c (a : ℤ) := by
    have hunit := hc.unit
    rw [Nat.cast_mul] at hunit
    exact IsCoprime.of_mul_right_left hunit
  obtain ⟨u, hu, hcu⟩ := hc
  have hua : IsCoprime u (a : ℤ) := by
    rw [Nat.cast_mul] at hu
    exact IsCoprime.of_mul_right_left hu
  have hdvd : (a : ℤ) ^ 2 ∣ ((a * b : ℕ) : ℤ) ^ 2 := ⟨(b : ℤ) ^ 2, by push_cast; ring⟩
  -- the unit drops out at the exponent `a - 1`
  have hone : u ^ (a * b * (a - 1)) ≡ 1 [ZMOD (a : ℤ) ^ 2] := by
    have hfermat : (u ^ (a - 1)) ^ b ≡ 1 [ZMOD (a : ℤ)] := by
      simpa using (Residue.pow_modEq_one_of_dvd ha hua dvd_rfl).pow b
    have hpow := Residue.pow_self_modEq_one hfermat
    rwa [← pow_mul, ← pow_mul, Nat.mul_comm b a, Nat.mul_comm (a - 1)] at hpow
  have hleft : c ^ (a - 1) ≡ 1 + a * (((a - 1 : ℕ) : ℤ) * (b * m)) [ZMOD (a : ℤ) ^ 2] := by
    calc c ^ (a - 1)
        ≡ ((1 + ((a * b : ℕ) : ℤ) * m) * u ^ (a * b)) ^ (a - 1) [ZMOD (a : ℤ) ^ 2] :=
          (hcu.of_dvd hdvd).pow _
      _ = (1 + a * (b * m)) ^ (a - 1) * u ^ (a * b * (a - 1)) := by
          rw [mul_pow, ← pow_mul]
          push_cast
          ring
      _ ≡ (1 + a * (((a - 1 : ℕ) : ℤ) * (b * m))) * 1 [ZMOD (a : ℤ) ^ 2] :=
          (Residue.one_add_mul_pow _ _ _).mul hone
      _ = 1 + a * (((a - 1 : ℕ) : ℤ) * (b * m)) := mul_one _
  have hlog := (Residue.one_add_mul_modEq_iff (by exact_mod_cast ha.ne_zero)).mp
    ((pow_pred_log ha hca).symm.trans hleft)
  calc factorPlain a inv c ≡ _ * inv [ZMOD a] := Int.mod_modEq _ _
    _ ≡ ((a - 1 : ℕ) : ℤ) * (b * m) * inv [ZMOD a] := hlog.mul_right inv
    _ = ((a - 1 : ℕ) : ℤ) * b * inv * m := by ring
    _ ≡ 1 * m [ZMOD a] := hinv.mul_right m
    _ = m := one_mul m

section
variable {p q : ℕ} (hpq : OddPrimes p q) {c m : ℤ}
include hpq

/-- Modulo the primes the plaintext is read, whatever the primes are. -/
theorem crtFactors_of_encrypts (h : ipp.Lawful) (hc : Encrypts (p * q) c m) :
    crtFactors ipp p q c = m % (p * q : ℕ) := by
  have hn : (0 : ℤ) < (p * q : ℕ) := by exact_mod_cast hpq.one_lt_n.le
  obtain ⟨hp0, hp1⟩ := factorPlain_range hpq.p_prime.pos (ofFactors ipp p q).hp c
  obtain ⟨hq0, -⟩ := factorPlain_range hpq.q_prime.pos (ofFactors ipp p q).hq c
  have hmod : m % (p * q : ℕ) ≡ m [ZMOD ((p * q : ℕ) : ℤ)] := Int.mod_modEq _ _
  have hp := factorPlain_of_encrypts hpq.p_prime (hp_spec h hpq) hc
  rw [Nat.mul_comm] at hc
  have hq := factorPlain_of_encrypts hpq.q_prime (hq_spec h hpq) hc
  exact computeCRT_unique h hpq hp0 hp1 hq0 (Int.emod_nonneg _ hn.ne') (Int.emod_lt_of_pos _ hn)
    (hp.trans (hmod.symm.of_dvd (by exact_mod_cast Nat.dvd_mul_right p q)))
    (hq.trans (hmod.symm.of_dvd (by exact_mod_cast Nat.dvd_mul_left q p)))

/-- Modulo the square of the modulus a multiple of it is read. -/
theorem rawFactors_of_encrypts (hc : Encrypts (p * q) c m) :
    rawFactors ipp p q c
      = (Nat.lcm (p - 1) (q - 1) : ℕ) * m * (ofFactors ipp p q).x % (p * q : ℕ) := by
  have hn : ((p * q : ℕ) : ℤ) ≠ 0 := by exact_mod_cast (Nat.zero_lt_of_lt hpq.one_lt_n).ne'
  have hexp := hc.pow_exponent (l := Nat.lcm (p - 1) (q - 1)) fun u hu =>
    Residue.pow_modEq_one_mul hpq.p_prime hpq.q_prime hpq.lt.ne hu (Nat.dvd_lcm_left _ _)
      (Nat.dvd_lcm_right _ _)
  have hpow : powMod c (Nat.lcm (p - 1) (q - 1) : ℕ) ((p * q : ℕ) * (p * q : ℕ))
      ≡ c ^ Nat.lcm (p - 1) (q - 1) [ZMOD ((p * q : ℕ) : ℤ) ^ 2] := by
    rw [← sq]
    exact powMod_modEq c (Nat.lcm (p - 1) (q - 1) : ℕ) _
  have hlog := Residue.log_modEq hn (hpow.trans hexp)
  exact (hlog.mul_right _).eq

/-- When the inverse of `lambda` exists, it is the plaintext. -/
theorem rawFactors_of_coprime (h : ipp.Lawful) (hcop : (p * q).Coprime ((p - 1) * (q - 1)))
    (hc : Encrypts (p * q) c m) : rawFactors ipp p q c = m % (p * q : ℕ) := by
  have hlam : (Nat.lcm (p - 1) (q - 1)).Coprime (p * q) :=
    (hcop.coprime_dvd_right (Nat.lcm_dvd_mul _ _)).symm
  have hx := mul_inverseMul h (invertible_mod hpq.one_lt_n hlam)
  rw [rawFactors_of_encrypts hpq hc]
  calc ((Nat.lcm (p - 1) (q - 1) : ℕ) : ℤ) * m * (ofFactors ipp p q).x % (p * q : ℕ)
      = (Nat.lcm (p - 1) (q - 1) : ℕ) * (ofFactors ipp p q).x * m % (p * q : ℕ) := by
        rw [mul_right_comm]
    _ = 1 * m % (p * q : ℕ) := (hx.mul_right m).eq
    _ = m % (p * q : ℕ) := by rw [one_mul]

/-- When it does not, every plaintext is a multiple of the smaller prime. -/
theorem dvd_rawFactors (hdvd : p ∣ q - 1) (hc : Encrypts (p * q) c m) :
    (p : ℤ) ∣ rawFactors ipp p q c := by
  have hlam : (p : ℤ) ∣ (Nat.lcm (p - 1) (q - 1) : ℕ) := by
    exact_mod_cast hdvd.trans (Nat.dvd_lcm_right (p - 1) (q - 1))
  rw [rawFactors_of_encrypts hpq hc]
  have hn : (p : ℤ) ∣ (p * q : ℕ) := by exact_mod_cast Nat.dvd_mul_right p q
  exact (EuclideanDomain.dvd_mod_iff hn).mpr ((hlam.mul_right m).mul_right _)

/-- Decrypting a number that encrypts. -/
theorem decrypt_factors (h : ipp.Lawful) (hme : me.Lawful Short) {pk : PublicKey}
    (hpk : pk.For (p * q : ℕ)) (hc : Cipher (p * q) c m) (crt : Bool) :
    decrypt ipp me ((ofFactors ipp p q).enableCRT crt) (CipherText.ofNumber pk c)
      = .ok (BaseText.ofVec [if crt then crtFactors ipp p q c else rawFactors ipp p q c]) := by
  have hunit : ∀ x ∈ [c], UnitResidue (p * q) x := by
    intro x hx
    rw [List.mem_singleton] at hx
    rw [hx]
    exact hc.unitResidue
  have hn : eq ipp pk.n (p * q : ℕ) = true := by
    rw [hpk.n_eq, eq_of_nonneg h (by omega) (by omega), decide_eq_true rfl]
  have hlen : [c].length < 2 ^ 31 := Nat.one_lt_two_pow (by decide)
  have hs := served_of_lawful hpq hme (List.cons_ne_nil c []) hlen hunit
  have hraw : decryptRAW ipp me ((ofFactors ipp p q).enableCRT crt) 1 [c]
      = .ok [rawFactors ipp p q c] := decryptRAW_factors h hpq hs hlen hunit
  have hcrt : decryptCRT ipp me ((ofFactors ipp p q).enableCRT crt) 1 [c]
      = .ok [crtFactors ipp p q c] := decryptCRT_factors h hpq hs hlen hunit
  have hinit : ((ofFactors ipp p q).enableCRT crt).isInitialized = true := rfl
  have hskn : ((ofFactors ipp p q).enableCRT crt).n = (p * q : ℕ) := rfl
  have hmode : ((ofFactors ipp p q).enableCRT crt).enableCrt = crt := rfl
  have hsize : (CipherText.ofNumber pk c).getSize = 1 := rfl
  have hkey : (CipherText.ofNumber pk c).pk = some pk := rfl
  have htexts : (CipherText.ofNumber pk c).getTexts = [c] := rfl
  simp only [decrypt, hinit, hskn, hmode, hsize, hkey, htexts, hn, hraw, hcrt, errorCheck_true,
    deref_some, Nat.zero_lt_one, decide_true, Result.bind_ok]
  cases crt <;> rfl

end

/-- The encryption the property speaks of. -/
theorem cipher_of {n : ℕ} (hn : 0 < n) (m : ℤ) {r : ℤ} (hr : IsCoprime r (n : ℤ)) :
    Cipher n ((1 + (n : ℤ) * m) * r ^ (n : ℤ).toNat % ((n : ℤ) * n)) m := by
  refine Cipher.of_encrypts hn ⟨r, hr, ?_⟩
  rw [Int.toNat_natCast]

/-- The plaintext one would be a multiple of the smaller prime. -/
theorem not_decrypts_of_dvd {p q : ℕ} (hpq : OddPrimes p q) (h : ipp.Lawful)
    (hme : me.Lawful Short) (hdvd : p ∣ q - 1) :
    ¬ Decrypts ipp me (ofFactors ipp p q) (p * q : ℕ) false := by
  intro hdec
  have hone : (1 : ℤ) < (p * q : ℕ) := by exact_mod_cast hpq.one_lt_n
  have hpk : (PublicKey.ofModulus (p * q : ℕ)).For (p * q : ℕ) := ⟨rfl, rfl, rfl⟩
  have hc := cipher_of (Nat.zero_lt_of_lt hpq.one_lt_n) 1 isCoprime_one_left
  have hread := hdec _ 1 1 hpk zero_le_one hone isCoprime_one_left
  rw [decrypt_factors hpq h hme hpk hc false, if_neg (by decide)] at hread
  have hplain : [rawFactors ipp p q _] = [(1 : ℤ)] :=
    congrArg BaseText.texts (Except.ok.inj hread)
  have hdvd_one := @dvd_rawFactors ipp _ _ hpq _ _ hdvd hc.encrypts
  rw [(List.cons.inj hplain).1] at hdvd_one
  have hle := Int.le_of_dvd one_pos hdvd_one
  have htwo := hpq.two_lt
  omega

section
variable (h : ipp.Lawful) (hme : me.Lawful Short) {p q : ℕ} (hp : p.Prime) (hq : q.Prime)
  (hp2 : p ≠ 2) (hq2 : q ≠ 2)
include h hme hp hq hp2 hq2

/-- Every key that is returned is that of two odd primes, and reads an encryption so. -/
theorem Constructed.decrypt_eq {n : ℤ} {sk : PrivateKey} (hsk : Constructed ipp me n p q sk)
    {pk : PublicKey} {m r : ℤ} (hpk : pk.For n) (hm0 : 0 ≤ m) (hmn : m < n)
    (hr : IsCoprime r n) (crt : Bool) : ∃ a b, OddPrimes a b ∧ n = (a * b : ℕ) ∧ p ≠ q ∧
      a = min p q ∧ b = max p q ∧ ∃ c, Encrypts (a * b) c m ∧
      decrypt ipp me (sk.enableCRT crt)
          (CipherText.ofNumber pk ((1 + n * m) * r ^ n.toNat % (n * n)))
        = .ok (BaseText.ofVec [if crt then crtFactors ipp a b c else rawFactors ipp a b c]) := by
  obtain ⟨rfl, hne⟩ := hsk.checked h (by omega)
  have hpq := OddPrimes.sorted hp hq hp2 hq2 hne
  rw [hsk.eq_ofFactors h hme.toOneExact hp hq hp2 hq2 hne]
  rw [← min_mul_max p q] at hpk hr hmn ⊢
  have hc := cipher_of (Nat.zero_lt_of_lt hpq.one_lt_n) m hr
  exact ⟨_, _, hpq, rfl, hne, rfl, rfl, _, hc.encrypts, decrypt_factors hpq h hme hpk hc crt⟩

/-- With the remainder theorem every key that is returned decrypts. -/
theorem decrypts_crt {n : ℤ} {sk : PrivateKey} (hsk : Constructed ipp me n p q sk) :
    Decrypts ipp me sk n true := by
  intro pk m r hpk hm0 hmn hr
  obtain ⟨a, b, hpq, rfl, -, -, -, c, hc, hread⟩ :=
    hsk.decrypt_eq h hme hp hq hp2 hq2 hpk hm0 hmn hr true
  rw [hread, if_pos rfl, crtFactors_of_encrypts hpq h hc, Int.emod_eq_of_lt hm0 hmn]

/-- **A constructor returns no key that fails to decrypt exactly when the product of the primes,
if it is the modulus, is prime to that of their predecessors.** -/
theorem constructor_sound_iff (n : ℤ) :
    Sound ipp me n p q ↔
      (n = (p * q : ℕ) → p ≠ q → (p * q).Coprime ((p - 1) * (q - 1))) := by
  have hsorted : (p * q).Coprime ((p - 1) * (q - 1))
      ↔ (min p q * max p q).Coprime ((min p q - 1) * (max p q - 1)) := by
    rcases le_total p q with hle | hle
    · rw [min_eq_left hle, max_eq_right hle]
    · rw [min_eq_right hle, max_eq_left hle, Nat.mul_comm p q, Nat.mul_comm (p - 1)]
  constructor
  · intro hsound hn hne
    have hpq := OddPrimes.sorted hp hq hp2 hq2 hne
    rw [hsorted, hpq.coprime_iff]
    intro hdvd
    have hsk : Constructed ipp me n p q (ofFactors ipp (min p q) (max p q)) := by
      rw [hn]
      exact .modulus (ofModulus_factors h hme.toOneExact hp hq hp2 hq2 hne)
    rw [← min_mul_max p q] at hn
    have hraw := (hsound _ hsk).2
    rw [hn] at hraw
    exact not_decrypts_of_dvd hpq h hme hdvd hraw
  · intro hcop sk hsk
    refine ⟨decrypts_crt h hme hp hq hp2 hq2 hsk, ?_⟩
    intro pk m r hpk hm0 hmn hr
    obtain ⟨a, b, hpq, hn, hne, rfl, rfl, c, hc, hread⟩ :=
      hsk.decrypt_eq h hme hp hq hp2 hq2 hpk hm0 hmn hr false
    have hcoprime := hsorted.mp (hcop (by rw [hn, min_mul_max]) hne)
    rw [hread, if_neg (by decide), rawFactors_of_coprime hpq h hcoprime hc, ← hn,
      Int.emod_eq_of_lt hm0 hmn]

end

/-- The primes 3 and 5. -/
theorem constructor_sound_three_five : Sound Ipp.reference ModExp.reference 15 3 5 :=
  (constructor_sound_iff Ipp.reference_lawful (ModExp.reference_lawful Short) Nat.prime_three
    Nat.prime_five (by decide) (by decide) 15).mpr fun _ _ => by decide

/-- The primes 3 and 7: a key is returned, and without the remainder theorem it does not read
the encryption of one. -/
theorem not_constructor_sound_three_seven :
    ¬ Sound Ipp.reference ModExp.reference 21 3 7 ∧
      ∃ sk, ofModulus Ipp.reference ModExp.reference 21 3 7 = .ok sk ∧
        ¬ Decrypts Ipp.reference ModExp.reference sk 21 false := by
  have hseven : Nat.Prime 7 := by norm_num
  have hpq : OddPrimes 3 7 :=
    OddPrimes.sorted Nat.prime_three hseven (by decide) (by decide) (by decide)
  have hok := ofModulus_factors Ipp.reference_lawful ModExp.reference_exact hpq.p_prime
    hpq.q_prime (by decide) (by decide) hpq.lt.ne
  have hraw := not_decrypts_of_dvd hpq Ipp.reference_lawful (ModExp.reference_lawful Short)
    (by decide)
  refine ⟨fun hsound => hraw (hsound _ (.modulus hok)).2, _, hok, hraw⟩

end PrivateKey

end Ipcl
