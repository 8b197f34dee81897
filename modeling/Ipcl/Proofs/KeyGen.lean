/-
Every generated pair of primes makes a key.

The loops never test that `n` is prime to `(p - 1) * (q - 1)`.  It follows from
their exit conditions: both primes are below `2 ^ h` and their product has `2 * h`
bits, so each is less than twice the other, and then neither can divide the other
less one.  The two loops are written differently but leave with the same facts,
collected in `Selected`; the invariant of the loop for normal mode is that the
length it tests is zero on the first round and the length of the last product
afterwards.
-/
import Ipcl.KeyGen
import Ipcl.Lib.Primality
import Ipcl.Proofs.Decrypt
import Ipcl.Proofs.PubKey

namespace Ipcl

open BigNumber Paillier Supply

/-! ### The distance -/

theorem ofWords_replicate_set (k w : ℕ) :
    ofWords ((List.replicate (k + 1) 0).set k w) = w * 2 ^ (32 * k) := by
  have hset : (List.replicate (k + 1) 0).set k w = List.replicate k 0 ++ [w] := by
    rw [List.replicate_succ', List.set_append_right _ _ (by simp)]
    simp
  have hzero : Nat.ofDigits (2 ^ 32) (List.replicate k 0) = 0 :=
    (Digits.ofDigits_eq_zero_iff (by decide) _).mpr fun d hd => List.eq_of_mem_replicate hd
  rw [hset, ofWords, Nat.ofDigits_append, hzero, List.length_replicate, Nat.ofDigits_singleton,
    ← pow_mul]
  ring

theorem getPrimeDistance_eq {h : ℕ} (hlo : 100 ≤ h) (hhi : h ≤ 1024) :
    getPrimeDistance (2 * h : ℕ) = 2 ^ (h - 100) := by
  have hcount : ((((2 * h : ℕ) : ℤ).tdiv 2 - 100) % 2 ^ 64).toNat = h - 100 := by
    rw [Int.tdiv_eq_ediv_of_nonneg (by omega)]
    omega
  have hres : (h - 100) &&& 0x1F = (h - 100) % 32 := Nat.and_two_pow_sub_one_eq_mod _ 5
  have hsplit : h - 100 = (h - 100) % 32 + 32 * ((h - 100) / 32) := by omega
  simp only [getPrimeDistance, hcount, hres, ofWords_replicate_set, Nat.shiftLeft_eq, one_mul,
    ← pow_add]
  rw [← hsplit]
  push_cast
  rfl

/-! ### What the loops leave with -/

/-- An odd prime below `2 ^ h`, as the generator returns them. -/
def PrimeBelow (h : ℕ) (x : ℤ) : Prop := ∃ a : ℕ, x = a ∧ a.Prime ∧ a ≠ 2 ∧ a < 2 ^ h

theorem PrimeBelow.two_lt {h : ℕ} {x : ℤ} (hx : PrimeBelow h x) : 2 < x := by
  obtain ⟨a, rfl, ha, ha2, -⟩ := hx
  have := ha.two_le
  omega

/-- Two different primes and their product. -/
structure Drawn (h : ℕ) (r : ℤ × ℤ × ℤ) : Prop where
  p_prime : PrimeBelow h r.1
  q_prime : PrimeBelow h r.2.1
  ne : r.1 ≠ r.2.1
  n_eq : r.2.2 = r.1 * r.2.1

/-- The exit conditions both modes share. -/
structure Selected (ipp : Ipp) (h : ℕ) (nLength refDist : ℤ) (r : ℤ × ℤ × ℤ) : Prop where
  drawn : Drawn h r
  bits : bitSize ipp r.2.2 = nLength
  far : isClosePrimeBN ipp r.1 r.2.1 refDist = false

section Loops

variable {ipp : Ipp} (hl : ipp.Lawful) {h : ℕ} {nLength refDist : ℤ}

theorem getPrimeBN_returns (maxBits : ℤ) :
    Returns (PrimeBelow h) (getPrimeBN maxBits) (PrimeBelow h) := Returns.draw _

include hl

theorem eq_iff {x y : ℤ} (hx : PrimeBelow h x) (hy : PrimeBelow h y) :
    eq ipp x y = true ↔ x = y := by
  have hx0 := hx.two_lt
  have hy0 := hy.two_lt
  rw [eq_of_nonneg hl (by omega) (by omega), decide_eq_true_eq]

theorem getNormalQ_returns {p : ℤ} (hp : PrimeBelow h p) :
    ∀ (fuel : ℕ) (q : ℤ), PrimeBelow h q →
      Returns (PrimeBelow h) (getNormalQ ipp nLength p fuel q)
        fun q' => PrimeBelow h q' ∧ p ≠ q' := by
  intro fuel
  induction fuel with
  | zero => intro q _; exact Returns.throw _
  | succ fuel ih =>
      intro q hq
      unfold getNormalQ
      by_cases heq : eq ipp q p = true
      · rw [if_pos heq]
        exact (getPrimeBN_returns _).bind fun q' hq' => ih q' hq'
      · rw [if_neg heq]
        exact Returns.pure ⟨hq, fun hc => heq ((eq_iff hl hq hp).mpr hc.symm)⟩

/-- The invariant: a length equal to the one asked for is that of the last product. -/
theorem getNormalLoop_returns :
    ∀ (fuel : ℕ) (len p q n : ℤ),
      (len = nLength → Drawn h (p, q, n) ∧ bitSize ipp n = nLength) →
      Returns (PrimeBelow h) (getNormalLoop ipp nLength refDist fuel len p q n)
        (Selected ipp h nLength refDist) := by
  intro fuel
  induction fuel with
  | zero => intro _ _ _ _ _; exact Returns.throw _
  | succ fuel ih =>
      intro len p q n hinv
      unfold getNormalLoop
      by_cases hagain : len ≠ nLength ∨ isClosePrimeBN ipp p q refDist = true
      · rw [if_pos hagain]
        refine (getPrimeBN_returns _).bind fun p' hp' => ?_
        refine Returns.get.bind fun left _ => ?_
        refine (getNormalQ_returns hl hp' _ p' hp').bind ?_
        intro q' hdrawn
        obtain ⟨hq', hne⟩ := hdrawn
        refine ih _ p' q' _ fun hlen => ⟨⟨hp', hq', hne, mul_eq hl p' q'⟩, hlen⟩
      · rw [if_neg hagain]
        push Not at hagain
        obtain ⟨hdrawn, hbits⟩ := hinv hagain.1
        exact Returns.pure ⟨hdrawn, hbits, Bool.not_eq_true _ ▸ hagain.2⟩

omit hl in
theorem getDJNP_returns : ∀ (fuel : ℕ),
    Returns (PrimeBelow h) (getDJNP nLength fuel) (PrimeBelow h) := by
  intro fuel
  induction fuel with
  | zero => exact Returns.throw _
  | succ fuel ih =>
      unfold getDJNP
      refine (getPrimeBN_returns _).bind fun p hp => ?_
      refine (Returns.lift (Q := fun _ => True) fun _ _ => True.intro).bind fun bit _ => ?_
      cases bit with
      | false => exact ih
      | true => exact Returns.pure hp

theorem getDJNQ_returns {p : ℤ} (hp : PrimeBelow h p) : ∀ (fuel : ℕ),
    Returns (PrimeBelow h) (getDJNQ ipp nLength p fuel)
      fun q => PrimeBelow h q ∧ p ≠ q := by
  intro fuel
  induction fuel with
  | zero => exact Returns.throw _
  | succ fuel ih =>
      unfold getDJNQ
      refine (getPrimeBN_returns _).bind fun q hq => ?_
      by_cases heq : eq ipp q p = true
      · rw [if_pos heq]
        exact ih
      · rw [if_neg heq]
        refine (Returns.lift (Q := fun _ => True) fun _ _ => True.intro).bind fun bit _ => ?_
        cases bit with
        | false => exact ih
        | true => exact Returns.pure ⟨hq, fun hc => heq ((eq_iff hl hq hp).mpr hc.symm)⟩

theorem getDJNLoop_returns : ∀ (fuel : ℕ),
    Returns (PrimeBelow h) (getDJNLoop ipp nLength refDist fuel)
      (Selected ipp h nLength refDist) := by
  intro fuel
  induction fuel with
  | zero => exact Returns.throw _
  | succ fuel ih =>
      unfold getDJNLoop
      refine Returns.get.bind fun left _ => ?_
      refine (getDJNP_returns _).bind fun p hp => ?_
      refine Returns.get.bind fun left' _ => ?_
      refine (getDJNQ_returns hl hp _).bind ?_
      intro q hdrawn
      obtain ⟨hq, hne⟩ := hdrawn
      show Returns _ (if _ then _ else _) _
      split_ifs with hagain
      · exact ih
      · push Not at hagain
        exact Returns.pure ⟨⟨hp, hq, hne, mul_eq hl p q⟩, hagain.2.1,
          Bool.not_eq_true _ ▸ hagain.2.2⟩

/-- Both modes leave with the same facts. -/
theorem drawPrimes_returns (hlen : nLength ≠ 0) (djn : Bool) :
    Returns (PrimeBelow h) (drawPrimes ipp nLength djn)
      (Selected ipp h nLength (getPrimeDistance nLength)) := by
  cases djn with
  | false =>
      refine Returns.get.bind fun left _ => ?_
      exact getNormalLoop_returns hl _ _ _ _ _ fun hc => absurd hc.symm hlen
  | true => exact Returns.get.bind fun left _ => getDJNLoop_returns hl _

end Loops

/-! ### What follows from the exit conditions -/

/-- A prime does not divide the other less one when it is more than half of it. -/
theorem not_dvd_pred {a b : ℕ} (ha : a.Prime) (ha2 : a ≠ 2) (hb : b.Prime) (hb2 : b ≠ 2)
    (hlt : b < 2 * a) : ¬ a ∣ b - 1 := by
  intro hdvd
  obtain ⟨k, hk⟩ := hdvd
  have hao : a % 2 = 1 := ha.eq_two_or_odd.resolve_left ha2
  have hbo : b % 2 = 1 := hb.eq_two_or_odd.resolve_left hb2
  have hb1 := hb.two_le
  rcases Nat.lt_or_ge k 2 with hk2 | hk2
  · -- the quotient would be zero or one, and both numbers are odd
    have : k = 0 ∨ k = 1 := by omega
    rcases this with rfl | rfl <;> omega
  · have : a * 2 ≤ a * k := Nat.mul_le_mul_left a hk2
    omega

/-- The factors of a product of `2 * h` bits, both below `2 ^ h`, are within a factor
two of each other. -/
theorem lt_two_mul {a b h : ℕ} (hh : 0 < h) (hb : b < 2 ^ h) (hab : 2 ^ (2 * h - 1) ≤ a * b) :
    b < 2 * a := by
  by_contra hc
  push Not at hc
  have hsq : 2 * (a * b) ≤ b * b := by
    calc 2 * (a * b) = 2 * a * b := by ring
      _ ≤ b * b := Nat.mul_le_mul_right b hc
  have hlt : b * b < 2 ^ h * 2 ^ h := Nat.mul_lt_mul'' hb hb
  have hpow : 2 ^ h * 2 ^ h = 2 * 2 ^ (2 * h - 1) := by
    rw [← pow_add, ← pow_succ', show h + h = 2 * h - 1 + 1 by omega]
  omega

theorem coprime_pred_mul_pred {a b h : ℕ} (hh : 0 < h) (ha : a.Prime) (ha2 : a ≠ 2)
    (hb : b.Prime) (hb2 : b ≠ 2) (hah : a < 2 ^ h) (hbh : b < 2 ^ h)
    (hab : 2 ^ (2 * h - 1) ≤ a * b) : (a * b).Coprime ((a - 1) * (b - 1)) := by
  have hself : ∀ {c : ℕ}, c.Prime → c.Coprime (c - 1) := by
    intro c hc
    rw [Nat.coprime_self_sub_right hc.one_le]
    exact Nat.coprime_one_right c
  have hba : a.Coprime (b - 1) :=
    (Nat.Prime.coprime_iff_not_dvd ha).mpr
      (not_dvd_pred ha ha2 hb hb2 (lt_two_mul hh hbh hab))
  have hab' : b.Coprime (a - 1) :=
    (Nat.Prime.coprime_iff_not_dvd hb).mpr
      (not_dvd_pred hb hb2 ha ha2 (lt_two_mul hh hah (Nat.mul_comm a b ▸ hab)))
  exact Nat.Coprime.mul_left (Nat.Coprime.mul_right (hself ha) hba)
    (Nat.Coprime.mul_right hab' (hself hb))

theorem isClosePrimeBN_eq_false {ipp : Ipp} (hl : ipp.Lawful) {p q d : ℤ} (hp : 0 ≤ p)
    (hq : 0 ≤ q) (hd : 0 ≤ d) : isClosePrimeBN ipp p q d = false ↔ d < |p - q| := by
  unfold isClosePrimeBN
  rw [ge_of_nonneg hl hp hq]
  by_cases hqp : q ≤ p
  · simp only [hqp, decide_true, if_true]
    rw [sub_eq_of_nonneg hl hp hq, gt_of_nonneg hl (by omega) hd, abs_of_nonneg (by omega)]
    simp
  · simp only [hqp, decide_false, Bool.false_eq_true, if_false]
    rw [sub_eq_of_nonneg hl hq hp, gt_of_nonneg hl (by omega) hd, abs_of_neg (by omega)]
    simp

/-- The lengths the checks accept are the even ones of a range. -/
theorem checkLength_ok {nLength : ℤ} (hok : checkLength nLength = .ok ()) :
    ∃ h : ℕ, nLength = (2 * h : ℕ) ∧ 100 ≤ h ∧ h ≤ 1024 := by
  unfold checkLength errorCheck at hok
  by_cases hmax : nLength ≤ 2048
  · by_cases hmin : nLength ≥ 200 ∧ nLength.tmod 4 = 0
    · obtain ⟨hmin, hmod⟩ := hmin
      rw [Int.tmod_eq_emod_of_nonneg (by omega)] at hmod
      exact ⟨(nLength / 2).toNat, by omega, by omega, by omega⟩
    · simp only [hmax, hmin, decide_true, decide_false, if_true, Bool.false_eq_true, if_false,
        Result.bind_ok, reduceCtorEq] at hok
  · simp only [hmax, decide_false, Bool.false_eq_true, if_false, Result.bind_error,
      reduceCtorEq] at hok

/-! ### The claim about key generation -/

section
variable {ipp : Ipp} {me : ModExp} (hl : ipp.Lawful) (hme : me.OneExact)
include hl hme

/-- What the four calls of `InverseMul` are made on, for a key built from a pair. -/
theorem PrivateKey.inverse_calls (P : PrimePair) {pk : PublicKey} (hpk : pk.For P.n) :
    let sk := PrivateKey.ofPair ipp P
    Invertible sk.p sk.q ∧
      (∃ a, PrivateKey.hfunArg ipp me pk.g sk.p sk.psquare = .ok a ∧ Invertible a sk.p) ∧
      (∃ a, PrivateKey.hfunArg ipp me pk.g sk.q sk.qsquare = .ok a ∧ Invertible a sk.q) ∧
      (∃ a, PrivateKey.xArg ipp me pk.n pk.g sk.lambda pk.nsquare = .ok a ∧
        Invertible a pk.n) := by
  have hn : P.n = P.q * P.p := Nat.mul_comm _ _
  rw [hpk.n_eq, hpk.nsquare_eq, hpk.g_eq]
  refine ⟨PrivateKey.invertible_pinverse P.oddPrimes, ⟨_, ?_, PrivateKey.invertible_hp P.oddPrimes⟩,
    ⟨_, ?_, PrivateKey.invertible_hq P.oddPrimes⟩, ⟨_, PrivateKey.xArg_pair hl hme P,
      PrivateKey.invertible_x P⟩⟩
  · exact PrivateKey.hfunArg_eq hl hme P.p_prime.one_lt P.p_odd
  · rw [hn]
    exact PrivateKey.hfunArg_eq hl hme P.q_prime.one_lt P.q_odd

/--
**Every generated pair makes a usable key.**

Whatever primes the generator returns, a run of either mode that ends leaves two
different primes with a product of the requested length, far enough apart, whose
product is prime to `(p - 1) * (q - 1)`; the constructor then succeeds, and each of
the inverses it takes exists.
-/
theorem generated_pair_usable {nLength : ℤ} (hok : checkLength nLength = .ok ()) (djn : Bool)
    {primes rest : List ℤ}
    (hprimes : ∀ x ∈ primes, ∃ a : ℕ, x = a ∧ a.Prime ∧ a ≠ 2 ∧ a < 2 ^ (nLength / 2).toNat)
    {p q n : ℤ} (hrun : drawPrimes ipp nLength djn primes = .ok ((p, q, n), rest))
    {bits : ℤ} {djn' : Bool} {draws rest' : Draws} {pk : PublicKey}
    (hpk : PublicKey.new ipp me n bits djn' draws = .ok (pk, rest')) :
    p ≠ q ∧ n = p * q ∧ (2 ^ (nLength - 1).toNat ≤ n ∧ n < 2 ^ nLength.toNat) ∧
      2 ^ (nLength / 2 - 100).toNat < |p - q| ∧ Int.gcd n ((p - 1) * (q - 1)) = 1 ∧
      ∃ sk, PrivateKey.ofPublicKey ipp me pk p q = .ok sk ∧
        Invertible sk.p sk.q ∧
        (∃ a, PrivateKey.hfunArg ipp me pk.g sk.p sk.psquare = .ok a ∧ Invertible a sk.p) ∧
        (∃ a, PrivateKey.hfunArg ipp me pk.g sk.q sk.qsquare = .ok a ∧ Invertible a sk.q) ∧
        (∃ a, PrivateKey.xArg ipp me pk.n pk.g sk.lambda pk.nsquare = .ok a ∧
          Invertible a pk.n) ∧
        Int.gcd sk.lambda n = 1 := by
  obtain ⟨h, rfl, hlo, hhi⟩ := checkLength_ok hok
  have hhalf : (((2 * h : ℕ) : ℤ) / 2).toNat = h := by omega
  rw [hhalf] at hprimes
  obtain ⟨⟨hdrawn, hbits, hfar⟩, -⟩ :=
    drawPrimes_returns hl (by omega) djn primes (p, q, n) rest hprimes hrun
  obtain ⟨⟨a, hpa, ha, ha2, hah⟩, ⟨b, hqb, hb, hb2, hbh⟩, hne, hn⟩ := hdrawn
  simp only at hpa hqb hne hn hbits hfar
  subst hpa hqb
  have hab : a ≠ b := fun hc => hne (congrArg Nat.cast hc)
  have hnab : n = ((a * b : ℕ) : ℤ) := by rw [hn, Nat.cast_mul]
  have hpos : 0 < a * b := Nat.mul_pos ha.pos hb.pos
  -- the length of the product, as powers of two
  obtain ⟨hge, hlt⟩ : 2 ^ (2 * h - 1) ≤ n ∧ n < 2 ^ (2 * h) := by
    have hsize : bitSize ipp n = ((2 * h - 1 + 1 : ℕ) : ℤ) := by
      rw [hbits]
      omega
    have := (bitSize_eq_iff hl (by rw [hnab]; exact_mod_cast hpos)).mp hsize
    rwa [show 2 * h - 1 + 1 = 2 * h by omega] at this
  have hcop : (a * b).Coprime ((a - 1) * (b - 1)) := by
    refine coprime_pred_mul_pred (by omega) ha ha2 hb hb2 hah hbh ?_
    rw [hnab] at hge
    exact_mod_cast hge
  have hfar' : 2 ^ (h - 100) < |(a : ℤ) - b| := by
    rw [getPrimeDistance_eq hlo hhi] at hfar
    exact (isClosePrimeBN_eq_false hl (by omega) (by omega) (by positivity)).mp hfar
  refine ⟨hne, hn, ?_, ?_, ?_, ?_⟩
  · rw [show (((2 * h : ℕ) : ℤ) - 1).toNat = 2 * h - 1 by omega, Int.toNat_natCast]
    exact ⟨hge, hlt⟩
  · rw [show (((2 * h : ℕ) : ℤ) / 2 - 100).toNat = h - 100 by omega]
    exact hfar'
  · have hpred : ((a : ℤ) - 1) * (b - 1) = (((a - 1) * (b - 1) : ℕ) : ℤ) := by
      rw [Nat.cast_mul, Nat.cast_sub ha.one_le, Nat.cast_sub hb.one_le, Nat.cast_one]
    rw [hnab, hpred, Int.gcd_natCast_natCast]
    exact hcop
  · have hP := PrimePair.n_ofPrimes ha hb hab hcop
    have hkey : pk.For ((a * b : ℕ) : ℤ) := by
      have hone : 1 < a * b := ha.one_lt.trans_le (Nat.le_mul_of_pos_right a hb.pos)
      have hodd : Odd (a * b) := (ha.odd_of_ne_two ha2).mul (hb.odd_of_ne_two hb2)
      rw [hnab] at hpk
      exact (PublicKey.new_returns hl hme hone hodd bits djn' draws pk rest' (by simp) hpk).1.for_n
    have hsk := PrivateKey.ofPublicKey_eq hl hme hkey ha hb hab hcop
    rw [hnab]
    rw [← hP] at hkey ⊢
    generalize PrimePair.ofPrimes ha hb hab hcop = P at hsk hkey ⊢
    obtain ⟨h1, h2, h3, h4⟩ := PrivateKey.inverse_calls hl hme P hkey
    refine ⟨_, hsk, h1, h2, h3, h4, ?_⟩
    show Int.gcd (P.lam : ℤ) (P.n : ℤ) = 1
    rw [Int.gcd_natCast_natCast]
    exact P.coprime_lam

end

/-! ### A run -/

theorem prime_small : Nat.Prime 851702747028341629130597466113 :=
  Primality.prime_of_generator (c := 43) (r := 2) (m := 93) (a := 3) Nat.prime_two
    (Primality.mem_of_dvd_prime (by norm_num)) (by decide) (by decide +kernel) (by decide +kernel)
    (by decide +kernel)

theorem prime_large : Nat.Prime 1093101054688990782735926689793 :=
  Primality.prime_of_generator (c := 883) (r := 2) (m := 89) (a := 3) Nat.prime_two
    (Primality.mem_of_dvd_prime (by norm_num)) (by decide) (by decide +kernel) (by decide +kernel)
    (by decide +kernel)

/-- The smallest length, in normal mode, where the first two primes already fit. -/
theorem generated_pair_usable_two_hundred :
    ∃ pk sk, drawPrimes Ipp.reference 200 false
        [851702747028341629130597466113, 1093101054688990782735926689793]
        = .ok ((851702747028341629130597466113, 1093101054688990782735926689793,
          930997171058190945008129252383866234086835824094893580484609), []) ∧
      PrivateKey.ofPublicKey Ipp.reference ModExp.reference pk 851702747028341629130597466113
        1093101054688990782735926689793 = .ok sk ∧
      Int.gcd sk.lambda 930997171058190945008129252383866234086835824094893580484609 = 1 := by
  have hprimes : ∀ x ∈ ([851702747028341629130597466113, 1093101054688990782735926689793] : List ℤ),
      ∃ a : ℕ, x = a ∧ a.Prime ∧ a ≠ 2 ∧ a < 2 ^ ((200 : ℤ) / 2).toNat := by
    intro x hx
    rcases List.mem_pair.mp hx with rfl | rfl
    · exact ⟨851702747028341629130597466113, rfl, prime_small, by decide, by decide⟩
    · exact ⟨1093101054688990782735926689793, rfl, prime_large, by decide, by decide⟩
  have hrun : drawPrimes Ipp.reference 200 false
      [851702747028341629130597466113, 1093101054688990782735926689793]
      = .ok ((851702747028341629130597466113, 1093101054688990782735926689793,
        930997171058190945008129252383866234086835824094893580484609), []) := by
    decide +kernel
  obtain ⟨-, -, -, -, -, sk, hsk, -, -, -, -, hgcd⟩ := generated_pair_usable Ipp.reference_lawful
    ModExp.reference_exact (by decide) false hprimes hrun
    (rfl : PublicKey.new Ipp.reference ModExp.reference _ 200 false [] = .ok (_, []))
  exact ⟨_, sk, hrun, hsk, hgcd⟩

end Ipcl
