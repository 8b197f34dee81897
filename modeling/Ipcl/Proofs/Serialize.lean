/-
Saving a private key and loading it again.

Reading back what `save` wrote gives the numbers written, and from the two primes
`load` derives the other fields as the constructors do.  What stands between the
two is the pair of placeholders `load` makes first: their length in words is the
bit size divided by 32 without rounding up, so for a smaller prime below `2 ^ 31`
it asks for a number of no words.

The number of words in an archive is narrowed to an `int`.  A number that has been
saved has fewer, so this concerns what an archive may hold besides.
-/
import Ipcl.Serialize
import Ipcl.Proofs.KeyGen

namespace Ipcl

open BigNumber Paillier

/-! ### Numbers -/

/-- The number a list of words and a sign denote. -/
def denoted (e : List ℕ × Bool) : ℤ := if e.2 then -(ofWords e.1 : ℤ) else ofWords e.1

/-- The number of a list of words from those of its two parts. -/
theorem ofWords_take_add_drop (ws : List ℕ) (k : ℕ) :
    ofWords ws
      = ofWords (ws.take k) + (2 ^ 32) ^ (ws.take k).length * ofWords (ws.drop k) := by
  conv_lhs => rw [← List.take_append_drop k ws]
  exact Nat.ofDigits_append

/-- The words that are left when their number has become an `int`. -/
def counted (e : List ℕ × Bool) : List ℕ × Bool := (e.1.take (toInt e.1.length).toNat, e.2)

/-- The number that is read from a list of words and a sign. -/
def numberRead (e : List ℕ × Bool) : ℤ := denoted (counted e)

/-- There is a word when the number of words has become an `int`. -/
def HasWords (e : List ℕ × Bool) : Prop := 1 ≤ toInt e.1.length

theorem hasWords_of_lt {e : List ℕ × Bool} (hne : e.1 ≠ []) (hlt : e.1.length < 2 ^ 31) :
    HasWords e := by
  have := List.length_pos_iff.mpr hne
  rw [HasWords, toInt_of_lt hlt]
  omega

theorem counted_of_lt {e : List ℕ × Bool} (hlt : e.1.length < 2 ^ 31) : counted e = e := by
  rw [counted, toInt_of_lt hlt, Int.toNat_natCast, List.take_length]

theorem numberRead_of_lt {e : List ℕ × Bool} (hlt : e.1.length < 2 ^ 31) :
    numberRead e = denoted e := by
  rw [numberRead, counted_of_lt hlt]

/-- The words of a number can be counted in an `int`, as those of every number can whose length in
bits is an `int`. -/
def Storable (x : ℤ) : Prop := bitsizeWord (bitLen x) < 2 ^ 31

instance (x : ℤ) : Decidable (Storable x) := by
  unfold Storable
  infer_instance

/-- A number as an archive holds it. -/
def numberItems (e : List ℕ × Bool) : Archive := [.words e.1, .sign e.2]

/-- The words and the sign of a number. -/
def saved (x : ℤ) : List ℕ × Bool := (num2vec x, x < 0)

theorem denoted_saved (x : ℤ) : denoted (saved x) = x := by
  simp only [denoted, saved, ofWords_num2vec, decide_eq_true_eq]
  split_ifs <;> omega

theorem length_saved (x : ℤ) : (saved x).1.length = bitsizeWord (bitLen x) := length_num2vec x

theorem length_saved_lt {x : ℤ} (hx : Storable x) : (saved x).1.length < 2 ^ 31 := by
  rwa [length_saved]

theorem saved_ne_nil (x : ℤ) : (saved x).1 ≠ [] := by
  show num2vec x ≠ []
  rw [← List.length_pos_iff, length_num2vec]
  have := bitLen_pos x
  unfold bitsizeWord
  omega

theorem hasWords_saved {x : ℤ} (hx : Storable x) : HasWords (saved x) :=
  hasWords_of_lt (saved_ne_nil x) (length_saved_lt hx)

theorem create_numberRead {e : List ℕ × Bool} (he : HasWords e) :
    create e.1 (toInt e.1.length) e.2 = .ok (numberRead e) := by
  rw [create, if_neg (not_lt.mpr he), numberRead, denoted, counted]

theorem load_numberItems {σ : Type} {e : List ℕ × Bool} (he : HasWords e) (ar : Archive) (s : σ) :
    (BigNumber.load : Load σ ℤ) (numberItems e ++ ar) s = (.ok (numberRead e, ar), s) := by
  show (Load.ofResult (create e.1 (toInt e.1.length) e.2) : Load σ ℤ) ar s = _
  rw [create_numberRead he, Load.ofResult]

theorem load_numberItems_none {σ : Type} {e : List ℕ × Bool} (he : ¬ HasWords e) (ar : Archive)
    (s : σ) : (BigNumber.load : Load σ ℤ) (numberItems e ++ ar) s
      = (.error (.undefined "number of no words"), s) := by
  show (Load.ofResult (create e.1 (toInt e.1.length) e.2) : Load σ ℤ) ar s = _
  rw [create, if_pos (not_le.mp he)]
  rfl

/-- A saved number is loaded as it was. -/
theorem load_save_number {σ : Type} {x : ℤ} (hx : Storable x) (ar : Archive) (s : σ) :
    (BigNumber.load : Load σ ℤ) (BigNumber.save x ++ ar) s = (.ok (x, ar), s) := by
  have hload : (BigNumber.load : Load σ ℤ) (BigNumber.save x ++ ar) s = _ :=
    load_numberItems (hasWords_saved hx) ar s
  rwa [numberRead_of_lt (length_saved_lt hx), denoted_saved] at hload

/-! ### Private keys -/

namespace PrivateKey

/-- With a word or more in the placeholders, what follows the size is the two numbers. -/
theorem loadPrimes_of_words {bits : ℤ} (hlen : 1 ≤ bits.tdiv 32) {ar ar' : Archive}
    {target : PrivateKey}
    (hint : (Load.int : Load PrivateKey ℤ) ar target = (.ok (bits, ar'), target)) :
    loadPrimes ar target
      = (do
          let p ← BigNumber.load
          let q ← BigNumber.load
          pure (p, q) : Load PrivateKey (ℤ × ℤ)) ar' target := by
  have hzero : zeroWords (bits.tdiv 32) = .ok (List.replicate (bits.tdiv 32).toNat 0) :=
    if_neg (by omega)
  obtain ⟨v, hv⟩ : ∃ v, create (List.replicate (bits.tdiv 32).toNat 0) (bits.tdiv 32) false
      = .ok v := ⟨_, if_neg (by omega)⟩
  unfold loadPrimes
  rw [Load.bind_ok hint]
  simp only [hzero, hv, Load.ofResult_ok_bind]

/-- Placeholders of no words stop the loading before the first number is read. -/
theorem loadPrimes_of_no_words {bits : ℤ} (hlen : bits.tdiv 32 = 0) {ar ar' : Archive}
    {target : PrivateKey}
    (hint : (Load.int : Load PrivateKey ℤ) ar target = (.ok (bits, ar'), target)) :
    loadPrimes ar target = (.error (.undefined "number of no words"), target) := by
  unfold loadPrimes
  rw [Load.bind_ok hint, hlen]
  rfl

variable {ipp : Ipp} {me : ModExp} (h : ipp.Lawful) (hme : me.OneExact) (P : PrimePair)
include h

theorem p_not_gt_q : lt ipp (P.q : ℤ) P.p = false := by
  rw [lt_of_nonneg h (by omega) (by omega), decide_eq_false_iff_not]
  have := P.p_lt_q
  omega

/-- The placeholders have a word when the smaller prime has 32 bits. -/
theorem one_le_placeholder : 1 ≤ (bitSize ipp P.p).tdiv 32 ↔ 2 ^ 31 ≤ P.p := by
  have hne : P.p ≠ 0 := P.p_prime.ne_zero
  have hsize : bitSize ipp P.p = (P.p.log2 + 1 : ℕ) := bitSize_eq h (by omega)
  rw [hsize, Int.tdiv_eq_ediv_of_nonneg (by omega), ← Nat.le_log2 hne]
  omega

/-- The archive of a key, read up to the primes. -/
theorem loadPrimes_save (crt : Bool) (target : PrivateKey) (hp : 2 ^ 31 ≤ P.p) :
    loadPrimes (save ipp ((ofPair ipp P).enableCRT crt)) target
      = (do
          let p ← BigNumber.load
          let q ← BigNumber.load
          pure (p, q) : Load PrivateKey (ℤ × ℤ))
        (numberItems (saved P.p) ++ numberItems (saved P.q)) target :=
  loadPrimes_of_words ((one_le_placeholder h P).mpr hp) rfl

/-- A prime below `2 ^ 31` stops the loading before the first prime is read. -/
theorem loadPrimes_save_small (crt : Bool) (target : PrivateKey) (hp : P.p < 2 ^ 31) :
    loadPrimes (save ipp ((ofPair ipp P).enableCRT crt)) target
      = (.error (.undefined "number of no words"), target) := by
  have hlen : ¬ 1 ≤ (bitSize ipp P.p).tdiv 32 := by
    rw [one_le_placeholder h P]
    omega
  have hpos : 0 ≤ bitSize ipp P.p := by
    rw [bitSize_eq h (by exact_mod_cast P.p_prime.ne_zero)]
    omega
  have hnn : 0 ≤ (bitSize ipp P.p).tdiv 32 := Int.tdiv_nonneg hpos (by decide)
  have hint : (Load.int : Load PrivateKey ℤ) (save ipp ((ofPair ipp P).enableCRT crt)) target
      = (.ok (bitSize ipp P.p, BigNumber.save (P.p : ℤ) ++ BigNumber.save (P.q : ℤ)), target) :=
    rfl
  exact loadPrimes_of_no_words (by omega) hint

include hme

/-- The fields `load` derives are those of the constructors. -/
theorem loadFields_eq (ar : Archive) (target : PrivateKey) :
    loadFields ipp me (P.p : ℤ) (P.q : ℤ) ar target = (.ok ((), ar), ofPair ipp P) := by
  have hg : add32 ipp P.n 1 = P.n + 1 := add32_eq h _ 1
  simp only [loadFields, p_not_gt_q h P, Bool.false_eq_true, if_false, p_mul_q h, hg,
    mul_eq h (P.n : ℤ) P.n, sub32_one h (Int.natCast_nonneg P.p),
    sub32_one h (Int.natCast_nonneg P.q), mul_eq h (P.p : ℤ) P.p, mul_eq h (P.q : ℤ) P.q,
    computeHfun_p h hme, computeHfun_q h hme, lcm_pred h, xArg_pair h hme]
  rfl

/-- Primes of 32 bits whose words can be counted are read back, and make the key. -/
theorem load_save (crt : Bool) (target : PrivateKey) (hp31 : 2 ^ 31 ≤ P.p)
    (hp : Storable P.p) (hq : Storable P.q) :
    Load.exec (load ipp me) (save ipp ((ofPair ipp P).enableCRT crt)) target
      = (.ok (), ofPair ipp P) := by
  have hread : (BigNumber.load : Load PrivateKey ℤ)
      (numberItems (saved P.p) ++ numberItems (saved P.q)) target = _ :=
    load_save_number hp (numberItems (saved P.q)) target
  have hread' : (BigNumber.load : Load PrivateKey ℤ) (numberItems (saved P.q) ++ []) target = _ :=
    load_save_number hq [] target
  rw [List.append_nil] at hread'
  have hprimes : loadPrimes (save ipp ((ofPair ipp P).enableCRT crt)) target
      = (.ok (((P.p : ℤ), (P.q : ℤ)), []), target) := by
    rw [loadPrimes_save h P crt target hp31, Load.bind_ok hread, Load.bind_ok hread']
    rfl
  unfold Load.exec load
  rw [Load.bind_ok hprimes]
  show (Except.map _ (loadFields ipp me (P.p : ℤ) P.q [] target).1,
    (loadFields ipp me (P.p : ℤ) P.q [] target).2) = _
  rw [loadFields_eq h hme P]
  rfl

omit hme in
/-- Of a smaller prime nothing is loaded. -/
theorem load_save_small (crt : Bool) (target : PrivateKey) (hp31 : P.p < 2 ^ 31) :
    Load.exec (load ipp me) (save ipp ((ofPair ipp P).enableCRT crt)) target
      = (.error (.undefined "number of no words"), target) := by
  unfold Load.exec load
  rw [Load.bind_error (loadPrimes_save_small h P crt target hp31)]
  rfl

omit h hme

/-! ### Primes with too many words -/

/-- The modulus is the product of what is read, however the load ends. -/
theorem loadFields_n (p q : ℤ) (ar : Archive) (target : PrivateKey) :
    (loadFields ipp me p q ar target).2.n = mul ipp p q := by
  unfold loadFields
  generalize (if lt ipp q p then q else p) = p'
  generalize (if lt ipp q p then p else q) = q'
  show ((Load.ofResult (computeHfun ipp me _ p' _) >>= fun hp => _ : Load PrivateKey Unit)
    ar _).2.n = _
  cases computeHfun ipp me (add32 ipp (mul ipp p q) 1) p' (mul ipp p' p') with
  | error e => rfl
  | ok hp =>
      show ((Load.ofResult (computeHfun ipp me _ q' _) >>= fun hq => _ : Load PrivateKey Unit)
        ar _).2.n = _
      cases computeHfun ipp me (add32 ipp (mul ipp p q) 1) q' (mul ipp q' q') with
      | error e => rfl
      | ok hq =>
          show ((Load.ofResult (xArg ipp me _ _ _ _) >>= fun lx => _ : Load PrivateKey Unit)
            ar _).2.n = _
          cases xArg ipp me (mul ipp p q) (add32 ipp (mul ipp p q) 1)
              (lcm ipp (sub32 ipp p' 1) (sub32 ipp q' 1)) (mul ipp (mul ipp p q) (mul ipp p q)) with
          | error e => rfl
          | ok lx => rfl

/-- What is left of a number when its words are counted in an `int`. -/
theorem numberRead_saved_le (x : ℕ) :
    0 ≤ numberRead (saved x) ∧ numberRead (saved x) ≤ x := by
  have hsign : (counted (saved x)).2 = false := by simp [counted, saved]
  have hle : ofWords (counted (saved x)).1 ≤ x := calc
    ofWords (counted (saved x)).1 ≤ ofWords (saved x).1 := by
      rw [counted, ofWords_take_add_drop (saved x).1 (toInt (saved x).1.length).toNat]
      exact Nat.le_add_right _ _
    _ = x := ofWords_num2vec x
  rw [numberRead, denoted, hsign, if_neg (by decide)]
  exact ⟨Int.natCast_nonneg _, by exact_mod_cast hle⟩

theorem eq_of_mul_eq {x y p q : ℤ} (hx : 0 ≤ x ∧ x ≤ p) (hy : 0 ≤ y ∧ y ≤ q) (hp : 0 < p)
    (hq : 0 < q) (h : x * y = p * q) : x = p ∧ y = q := by
  refine ⟨le_antisymm hx.2 ?_, le_antisymm hy.2 ?_⟩
  · by_contra hlt
    nlinarith
  · by_contra hlt
    nlinarith

/-- A number whose words are too many to be counted is not read back. -/
theorem storable_of_numberRead {x : ℕ} (hx : x ≠ 0)
    (h : numberRead (saved x) = x) : Storable x := by
  unfold Storable
  by_contra hlong
  have hsign : (counted (saved x)).2 = false := by simp [counted, saved]
  have hk : (toInt (saved x).1.length).toNat < bitsizeWord (bitLen x) := by
    rw [length_saved, toInt_eq]
    split_ifs <;> omega
  rw [numberRead, denoted, hsign, if_neg (by decide), Nat.cast_inj] at h
  have hlt : ofWords (counted (saved x)).1 < (2 ^ 32) ^ (bitsizeWord (bitLen x) - 1) := by
    show Nat.ofDigits (2 ^ 32) ((num2vec x).take (toInt (saved x).1.length).toNat) < _
    rw [num2vec, Digits.take_fixed hk.le, Digits.ofDigits_fixed]
    exact (Nat.mod_lt _ (by positivity)).trans_le (Nat.pow_le_pow_right (by norm_num) (by omega))
  have hge : (2 ^ 32) ^ (bitsizeWord (bitLen x) - 1) ≤ x := by
    rw [← pow_mul, ← Nat.le_log2 hx]
    have hbits : bitLen x = x.log2 + 1 := rfl
    unfold bitsizeWord
    omega
  omega

/-- Both constructors, with the primes in either order, and loading what any of them
saved give one initialised key, which uses the CRT. -/
def SameKey (ipp : Ipp) (me : ModExp) (p q : ℕ) : Prop :=
  ∀ pk : PublicKey, pk.For (p * q : ℕ) → ∃ sk : PrivateKey,
    ofPublicKey ipp me pk p q = .ok sk ∧ ofPublicKey ipp me pk q p = .ok sk ∧
    ofModulus ipp me (p * q : ℕ) p q = .ok sk ∧ ofModulus ipp me (p * q : ℕ) q p = .ok sk ∧
    sk.isInitialized = true ∧ sk.enableCrt = true ∧ sk.p < sk.q ∧
    ∀ (crt : Bool) (target : PrivateKey),
      Load.exec (load ipp me) (save ipp (sk.enableCRT crt)) target = (.ok (), sk)

include h hme

/-- The constructors alone agree for every pair. -/
theorem constructors_agree {p q : ℕ} (hp : p.Prime) (hq : q.Prime) (hne : p ≠ q)
    (hcop : Nat.gcd (p * q) ((p - 1) * (q - 1)) = 1) {pk : PublicKey}
    (hpk : pk.For (p * q : ℕ)) :
    let sk := ofPair ipp (PrimePair.ofPrimes hp hq hne hcop)
    ofPublicKey ipp me pk p q = .ok sk ∧ ofPublicKey ipp me pk q p = .ok sk ∧
      ofModulus ipp me (p * q : ℕ) p q = .ok sk ∧
      ofModulus ipp me (p * q : ℕ) q p = .ok sk := by
  have hcop' : Nat.gcd (q * p) ((q - 1) * (p - 1)) = 1 := by
    rwa [Nat.mul_comm q, Nat.mul_comm (q - 1)]
  have hcomm := PrimePair.ofPrimes_comm hp hq hne hcop hcop'
  have hmul : (p * q : ℕ) = q * p := Nat.mul_comm p q
  refine ⟨ofPublicKey_eq h hme hpk hp hq hne hcop, ?_, ofModulus_eq h hme hp hq hne hcop, ?_⟩
  · rw [hmul] at hpk
    rw [← hcomm]
    exact ofPublicKey_eq h hme hpk hq hp hne.symm hcop'
  · rw [hmul, ← hcomm]
    exact ofModulus_eq h hme hq hp hne.symm hcop'

omit hme in
/-- Primes that are read back have 32 bits, and words that can be counted. -/
theorem primes_of_load {crt : Bool} {target : PrivateKey}
    (hload : Load.exec (load ipp me) (save ipp ((ofPair ipp P).enableCRT crt)) target
      = (.ok (), ofPair ipp P)) :
    2 ^ 31 ≤ P.p ∧ Storable P.p ∧ Storable P.q := by
  have hp31 : 2 ^ 31 ≤ P.p := by
    by_contra hc
    rw [load_save_small h P crt target (not_le.mp hc)] at hload
    cases hload
  refine ⟨hp31, ?_⟩
  rw [Load.exec, load] at hload
  have hprimes := loadPrimes_save h P crt target hp31
  by_cases hp : HasWords (saved P.p)
  swap
  · rw [Load.bind_error (load_numberItems_none hp _ _)] at hprimes
    rw [Load.bind_error hprimes] at hload
    cases hload
  by_cases hq : HasWords (saved P.q)
  swap
  · have hnone := load_numberItems_none hq [] target
    rw [List.append_nil] at hnone
    rw [Load.bind_ok (load_numberItems hp _ _), Load.bind_error hnone] at hprimes
    rw [Load.bind_error hprimes] at hload
    cases hload
  have hsome := load_numberItems hq [] target
  rw [List.append_nil] at hsome
  rw [Load.bind_ok (load_numberItems hp _ _), Load.bind_ok hsome] at hprimes
  rw [Load.bind_ok hprimes] at hload
  -- the modulus of the key is the product of what has been read
  have hn : mul ipp (numberRead (saved P.p)) (numberRead (saved P.q)) = P.n := by
    have hkey := (Prod.mk.inj hload).2
    have hfields := @loadFields_n ipp me (numberRead (saved P.p))
      (numberRead (saved P.q)) [] target
    exact hfields.symm.trans (congrArg PrivateKey.n hkey)
  rw [mul_eq h, show (P.n : ℤ) = P.p * P.q from Int.natCast_mul P.p P.q] at hn
  -- neither has become larger, so neither has become smaller
  obtain ⟨hpr, hqr⟩ := eq_of_mul_eq (numberRead_saved_le P.p) (numberRead_saved_le P.q)
    (by exact_mod_cast P.p_prime.pos) (by exact_mod_cast P.q_prime.pos) hn
  exact ⟨storable_of_numberRead P.p_prime.ne_zero hpr,
    storable_of_numberRead P.q_prime.ne_zero hqr⟩

/--
**The six ways give one key exactly when both primes have 32 bits.**

The constructors agree always.  Loading fails below the bound, and at or above it
restores every field and turns the CRT on again.  That the words of either prime can be
counted in an `int` is so for every number there can be.
-/
theorem same_key_iff {p q : ℕ} (hp : p.Prime) (hq : q.Prime) (hne : p ≠ q)
    (hcop : Nat.gcd (p * q) ((p - 1) * (q - 1)) = 1) :
    SameKey ipp me p q ↔ (2 ^ 31 ≤ p ∧ 2 ^ 31 ≤ q) ∧ Storable p ∧ Storable q := by
  have hmin : (PrimePair.ofPrimes hp hq hne hcop).p = min p q := rfl
  have hmax : (PrimePair.ofPrimes hp hq hne hcop).q = max p q := rfl
  have hwords : (Storable (PrimePair.ofPrimes hp hq hne hcop).p ∧
      Storable (PrimePair.ofPrimes hp hq hne hcop).q) ↔ Storable p ∧ Storable q := by
    rw [hmin, hmax]
    rcases le_total p q with hpq | hpq
    · rw [min_eq_left hpq, max_eq_right hpq]
    · rw [min_eq_right hpq, max_eq_left hpq, and_comm]
  constructor
  · intro hsame
    obtain ⟨sk, hsk, -, -, -, -, -, -, hload⟩ := hsame
      { isInitialized := true, n := (p * q : ℕ), g := (p * q : ℕ) + 1,
        nsquare := (p * q : ℕ) * (p * q : ℕ), bits := 0, dwords := 0, hs := 0, randbits := 0,
        djnEnabled := false, r := [], testv := false } ⟨rfl, rfl, rfl⟩
    rw [ofPublicKey_eq h hme ⟨rfl, rfl, rfl⟩ hp hq hne hcop] at hsk
    have hload' := hload true sk
    rw [← Except.ok.inj hsk] at hload'
    obtain ⟨h31, hcount⟩ := primes_of_load h _ hload'
    exact ⟨by omega, hwords.mp hcount⟩
  · rintro ⟨⟨hp31, hq31⟩, hcount⟩ pk hpk
    obtain ⟨h1, h2, h3, h4⟩ := constructors_agree h hme hp hq hne hcop hpk
    obtain ⟨hcountp, hcountq⟩ := hwords.mpr hcount
    refine ⟨_, h1, h2, h3, h4, rfl, rfl, ?_, fun crt target => ?_⟩
    · exact Int.ofNat_lt.mpr (PrimePair.ofPrimes hp hq hne hcop).p_lt_q
    · exact load_save h hme _ crt target (by omega) hcountp hcountq

omit h hme

/-- Two primes of a hundred bits. -/
theorem same_key_iff_hundred_bits :
    SameKey Ipp.reference ModExp.reference 851702747028341629130597466113
      1093101054688990782735926689793 :=
  (same_key_iff Ipp.reference_lawful ModExp.reference_exact prime_small prime_large (by decide)
    (by decide)).mpr ⟨by decide, by decide⟩

/-- The key with the primes 3 and 5 does not survive being saved and loaded. -/
theorem not_same_key_three_five : ¬ SameKey Ipp.reference ModExp.reference 3 5 := by
  intro hsame
  obtain ⟨sk, -, -, hsk, -, -, -, -, hload⟩ := hsame
    { isInitialized := true, n := 15, g := 16, nsquare := 225, bits := 4, dwords := 1, hs := 0,
      randbits := 0, djnEnabled := false, r := [], testv := false } ⟨rfl, rfl, rfl⟩
  rw [ofModulus_eq Ipp.reference_lawful ModExp.reference_exact Nat.prime_three Nat.prime_five
    (by decide) (by decide)] at hsk
  have hload' := hload true sk
  rw [← Except.ok.inj hsk, load_save_small Ipp.reference_lawful _ true _
    (by decide)] at hload'
  cases hload'

end PrivateKey

end Ipcl
