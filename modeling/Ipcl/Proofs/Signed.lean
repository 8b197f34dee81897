/-
Multipliers with a sign.

`operator*` hands its multipliers to the engines as they are.  For one element, and in the
loop over single numbers, that is Montgomery exponentiation, which refuses a negative
exponent.  Where that loop is shared by threads the exception ends the program, so there a
vector is not refused.  The multi-buffer function and the device are given the words of the
exponent and no sign, so they raise to the magnitude and a vector with a negative multiplier
neither throws nor holds the products.

Without negative multipliers it depends on the operands whether a vector is right: a
multiplier may be too long for its engine, and a result of the device may not be read
back.  `Engines.Reached` says what has to hold.  And there must not be more elements than
decryption can count.
-/
import Ipcl.Proofs.Homomorphic
import Ipcl.Proofs.Serves

namespace Ipcl

open BigNumber Paillier CipherText

/-! ### The law -/

/-- Each text with the multiplier it meets. -/
def multiplied (texts ks : List ℤ) : List (ℤ × ℤ) := Vec.broadcast Prod.mk texts ks

section
variable (P : PrimePair) (pk : PublicKey) (ct : CipherText) (ms ks : List ℤ)

/-- The product throws or decrypts to the products, and it throws exactly when one of the
elements would throw alone. -/
structure SignedLaw (ipp : Ipp) (engine me : ModExp) : Prop where
  exact : Throws (mulPT engine ct (BaseText.ofVec ks)) ∨
    ∃ c, mulPT engine ct (BaseText.ofVec ks) = .ok c ∧ ∀ crt,
      PrivateKey.decrypt ipp me ((PrivateKey.ofPair ipp P).enableCRT crt) c
        = .ok (BaseText.ofVec (Vec.broadcast (fun m k => k * m % (P.n : ℤ)) ms ks))
  uniform : Throws (mulPT engine ct (BaseText.ofVec ks)) ↔ ∃ ck ∈ multiplied ct.texts ks,
    Throws (mulPT engine (ofNumber pk ck.1) (BaseText.ofNumber ck.2))

/-- The law on the engines of a build, whatever conforms to their documentation. -/
def SignedMultipliers (mb openmp : Bool) (share : ℕ → ℕ) : Prop :=
  ∀ (en : Engines) (me : ModExp), en.Lawful → en.openmp = openmp → en.mont.Refuses →
    me.Lawful Short → SignedLaw P pk ct ms ks en.ipp (en.toModExp mb share) me

end

/-! ### One element -/

section
variable {mont : Mont} {radix : ℕ → ℤ} {b e m : ℤ}

/-- Montgomery exponentiation throws for a negative exponent. -/
theorem throws_of_neg (hmont : mont.Lawful radix) (href : mont.Refuses) (hb : 0 ≤ b)
    (hlt : b < m) (hm : Odd m) (he : e < 0) : Throws (ippSBModExp mont b e m) := by
  obtain ⟨k, rfl⟩ := Int.eq_ofNat_of_zero_le (hb.trans hlt.le)
  have hodd : Odd k := by exact_mod_cast hm
  have hwords : 0 < bitsizeWord (bitLen (k : ℤ)) := by
    have := bitLen_pos (k : ℤ)
    unfold bitsizeWord
    omega
  have hexp := href.exp_sign k (b * radix k % k) e he
  refine ⟨"ippsMontExp: error code = " ++ toString (mont.exp k (b * radix k % k) e).1, ?_⟩
  simp only [ippSBModExp, hmont.getSize_ok _ hwords, hmont.init_ok _ hwords, Int.natAbs_natCast,
    hmont.set_ok k hodd, hmont.form_ok k b hodd hb hlt, decide_true, errorCheck_true,
    Result.bind_ok, decide_eq_false hexp, errorCheck_false, Result.bind_error]

end

section
variable {en : Engines} {mb : Bool} {share : ℕ → ℕ} {P : PrimePair} {pk : PublicKey}
  {ct : CipherText} {ms ks : List ℤ}

/-- One element is refused exactly when its multiplier is negative. -/
theorem throws_one_iff (mb : Bool) (share : ℕ → ℕ) (h : en.Lawful) (href : en.mont.Refuses)
    (hpk : pk.For P.n) (hct : EncryptsVec P.n pk ct ms) {x k : ℤ} (hx : x ∈ ct.texts) :
    Throws (mulPT (en.toModExp mb share) (ofNumber pk x) (BaseText.ofNumber k)) ↔ k < 0 := by
  obtain ⟨radix, hmont⟩ := h.mont
  have hone : mulPT (en.toModExp mb share) (ofNumber pk x) (BaseText.ofVec [k]) = _ :=
    mulPT_one (of_ofVec pk [x]) rfl
  have hadm := hct.admissible P.n_odd hpk hx (le_refl 0)
  rw [show BaseText.ofNumber k = BaseText.ofVec [k] from rfl, hone]
  constructor
  · intro hthrows
    by_contra hk
    have hok : (en.toModExp mb share).one x k pk.nsquare = .ok (powMod x k pk.nsquare) :=
      ippSBModExp_eq hmont (hct.admissible P.n_odd hpk hx (not_lt.mp hk))
    rw [hok] at hthrows
    exact not_throws_ok hthrows
  · intro hk
    obtain ⟨msg, hmsg⟩ := throws_of_neg hmont href hadm.base_nonneg hadm.base_lt hadm.odd hk
    refine ⟨msg, ?_⟩
    rw [show (en.toModExp mb share).one x k pk.nsquare = _ from hmsg]
    rfl

/-- Products that come out keep the law, where no multiplier is negative. -/
theorem law_of_product (h : en.Lawful) (href : en.mont.Refuses) {me : ModExp}
    (hme : me.Lawful Short)
    (hpk : pk.For P.n) (hct : EncryptsVec P.n pk ct ms) (hne : ms ≠ [])
    (hlen : ct.texts.length < 2 ^ 31) (hfit : Fitting ct.texts ks) (hks : ∀ k ∈ ks, 0 ≤ k)
    (hprod : mulPT (en.toModExp mb share) ct (BaseText.ofVec ks)
      = .ok (ofVec pk (Vec.broadcast (fun x k => powMod x k pk.nsquare) ct.texts ks))) :
    SignedLaw P pk ct ms ks en.ipp (en.toModExp mb share) me where
  exact := by
    refine .inr ⟨_, hprod, fun crt => ?_⟩
    have hn : 1 < P.n := P.q_prime.one_lt.trans P.q_lt_n
    rw [Fitting, hct.length_eq] at hfit
    have hsize := Vec.length_broadcast (fun m k : ℤ => k * m) hfit
    have hne' : Vec.broadcast (fun m k => k * m) ms ks ≠ [] := by
      rw [← List.length_pos_iff, hsize]
      exact List.length_pos_iff.mpr hne
    rw [PrivateKey.decrypt_encryptsVec h.ipp hme P hpk (hct.powers hn hpk hks) hne'
      (by rwa [hsize, ← hct.length_eq]) crt, Vec.map_broadcast]
  uniform := by
    constructor
    · intro hthrows
      rw [hprod] at hthrows
      exact absurd hthrows not_throws_ok
    · intro hsome
      obtain ⟨ck, hck, hthrows⟩ := hsome
      obtain ⟨x, hx, k, hk, rfl⟩ := Vec.mem_broadcast hck
      have hneg := (throws_one_iff mb share h href hpk hct hx).mp hthrows
      exact absurd (hks k hk) hneg.not_ge

/-- A vector of one element keeps the law. -/
theorem law_of_one (h : en.Lawful) (href : en.mont.Refuses) {me : ModExp}
    (hme : me.Lawful Short)
    (hpk : pk.For P.n) (hct : EncryptsVec P.n pk ct ms) (hfit : Fitting ct.texts ks)
    (hone : ct.texts.length = 1) : SignedLaw P pk ct ms ks en.ipp (en.toModExp mb share) me := by
  obtain ⟨x, hx⟩ := List.length_eq_one_iff.mp hone
  obtain ⟨k, rfl⟩ : ∃ k, ks = [k] := List.length_eq_one_iff.mp (by
    rcases hfit with hfit | hfit <;> omega)
  have hmem : x ∈ ct.texts := by simp [hx]
  have hsame : mulPT (en.toModExp mb share) ct (BaseText.ofVec [k])
      = mulPT (en.toModExp mb share) (ofNumber pk x) (BaseText.ofNumber k) := by
    rw [mulPT_one hct.of_key hx]
    exact (mulPT_one (of_ofVec pk [x]) rfl).symm
  by_cases hk : k < 0
  · have hthrows := (throws_one_iff mb share h href hpk hct hmem).mpr hk
    refine ⟨.inl (hsame ▸ hthrows), fun _ => ⟨(x, k), ?_, hthrows⟩, fun _ => hsame ▸ hthrows⟩
    rw [multiplied, hx]
    exact List.mem_singleton_self _
  · have hk0 : 0 ≤ k := not_lt.mp hk
    obtain ⟨radix, hmont⟩ := h.mont
    have hpow : (en.toModExp mb share).one x k pk.nsquare = .ok (powMod x k pk.nsquare) :=
      ippSBModExp_eq hmont (hct.admissible P.n_odd hpk hmem hk0)
    have hne : ms ≠ [] := by
      rw [← List.length_pos_iff, ← hct.length_eq, hone]
      exact Nat.one_pos
    have hlen : ct.texts.length < 2 ^ 31 := by
      rw [hone]
      decide
    refine law_of_product h href hme hpk hct hne hlen hfit (by simpa using hk0) ?_
    rw [mulPT_one hct.of_key hx, hpow, hx]
    rfl

/-! ### Several elements -/

/-- The operands of a product, as the engines are given them. -/
theorem raised_admissible (hpk : pk.For P.n) (hct : EncryptsVec P.n pk ct ms)
    (hks : ∀ k ∈ ks, 0 ≤ k) : ∀ t ∈ raised pk ct.texts ks, Admissible t.1 t.2.1 t.2.2 := by
  intro t ht
  obtain ⟨hx, hk, hm⟩ := mem_raised ht
  rw [hm]
  exact hct.admissible P.n_odd hpk hx (hks _ hk)

/-- Multipliers that are not negative and reach the engines keep the law. -/
theorem law_of_reached (h : en.Lawful) (href : en.mont.Refuses) {me : ModExp}
    (hme : me.Lawful Short) (hpk : pk.For P.n) (hct : EncryptsVec P.n pk ct ms) (hne : ms ≠ [])
    (hlen : ct.texts.length < 2 ^ 31) (hfit : Fitting ct.texts ks)
    (hshare : share ct.texts.length ≤ ct.texts.length) (hks : ∀ k ∈ ks, 0 ≤ k)
    (hreach : Engines.Reached mb (bitLen pk.nsquare) (share ct.texts.length)
      (raised pk ct.texts ks)) :
    SignedLaw P pk ct ms ks en.ipp (en.toModExp mb share) me := by
  by_cases hone : ct.texts.length = 1
  · exact law_of_one h href hme hpk hct hfit hone
  have hraised : (raised pk ct.texts ks).length = ct.texts.length := length_raised hfit
  have hne' : raised pk ct.texts ks ≠ [] := by
    rw [← List.length_pos_iff, hraised, hct.length_eq]
    exact List.length_pos_iff.mpr hne
  have hserves : (en.toModExp mb share).Serves (raised pk ct.texts ks) :=
    Engines.serves_of_reached h (raised_admissible hpk hct hks)
      (fun t ht => by rw [(mem_raised ht).2.2]) hne' (hraised ▸ hlen) (hraised ▸ hshare)
      (hraised ▸ hreach)
  refine law_of_product h href hme hpk hct hne hlen hfit hks ?_
  rw [mulPT_vec hct.of_key hfit hone]
  show ((en.toModExp mb share).vec (bases (raised pk ct.texts ks)) (exps _) (mods _) >>= _) = _
  rw [hserves, Result.bind_ok, powers, raised, Vec.map_broadcast]
  rfl

end

/-! ### One number after the other -/

section
variable {en : Engines} {share : ℕ → ℕ} {P : PrimePair} {pk : PublicKey} {ct : CipherText}
  {ms ks : List ℤ}

/-- Without the multi-buffer function and the device several elements go through the loop over
single numbers. -/
theorem mulPT_loop (en : Engines) (hof : Of pk ct) (hfit : Fitting ct.texts ks)
    (hne : ct.texts ≠ []) (hlen : ct.texts.length ≠ 1) (hshare : share ct.texts.length = 0) :
    mulPT (en.toModExp false share) ct (BaseText.ofVec ks) = (do
      let product ← en.ippSBModExpWrapper (bases (raised pk ct.texts ks))
        (exps (raised pk ct.texts ks)) (mods (raised pk ct.texts ks))
      pure (ofVec pk product)) := by
  have hraised : (raised pk ct.texts ks).length = ct.texts.length := length_raised hfit
  have hpos : 0 < ct.texts.length := List.length_pos_iff.mpr hne
  rw [mulPT_vec hof hfit hlen]
  show (en.modExp false (share ((raised pk ct.texts ks).map (·.1)).length) (bases _) (exps _)
    (mods _) >>= _) = _
  rw [List.length_map, hraised, hshare, Engines.modExp,
    if_neg (by rw [List.length_map, hraised]; omega), if_pos rfl, Engines.ippModExp,
    if_neg (by rwa [List.length_map, hraised]), if_neg (by decide)]

/-- In a build without OpenMP a negative multiplier is refused there, as it is alone. -/
theorem law_of_loop (h : en.Lawful) (hserial : en.openmp = false) (href : en.mont.Refuses)
    (me : ModExp) (hpk : pk.For P.n)
    (hct : EncryptsVec P.n pk ct ms) (hne : ct.texts ≠ []) (hfit : Fitting ct.texts ks)
    (hlen : ct.texts.length ≠ 1) (hshare : share ct.texts.length = 0)
    (hloop : ct.texts.length < 2 ^ 31) {k : ℤ} (hk : k ∈ ks) (hneg : k < 0) :
    SignedLaw P pk ct ms ks en.ipp (en.toModExp false share) me := by
  obtain ⟨radix, hmont⟩ := h.mont
  have hraised : (raised pk ct.texts ks).length = ct.texts.length := length_raised hfit
  have hround : ∀ t ∈ raised pk ct.texts ks,
      (∃ r, ippSBModExp en.mont t.1 t.2.1 t.2.2 = .ok r) ∨
        Throws (ippSBModExp en.mont t.1 t.2.1 t.2.2) := by
    intro t ht
    obtain ⟨hx, -, hm⟩ := mem_raised ht
    rw [hm]
    by_cases h0 : 0 ≤ t.2.1
    · exact .inl ⟨_, ippSBModExp_eq hmont (hct.admissible P.n_odd hpk hx h0)⟩
    · have hadm := hct.admissible P.n_odd hpk hx (le_refl 0)
      exact .inr (throws_of_neg hmont href hadm.base_nonneg hadm.base_lt hadm.odd (not_le.mp h0))
  obtain ⟨x, hx, hpair⟩ := Vec.exists_broadcast hne hfit hk
  have hmem : (x, k, pk.nsquare) ∈ raised pk ct.texts ks := by
    have hmap := List.mem_map_of_mem (f := fun ck : ℤ × ℤ => (ck.1, ck.2, pk.nsquare)) hpair
    rwa [Vec.map_broadcast] at hmap
  have hadm := hct.admissible P.n_odd hpk hx (le_refl 0)
  have hvec := Engines.throws_ippSBModExpWrapper hserial (hraised.symm ▸ hloop) hround
    ⟨_, hmem, throws_of_neg hmont href hadm.base_nonneg hadm.base_lt hadm.odd hneg⟩
  have hthrows : Throws (mulPT (en.toModExp false share) ct (BaseText.ofVec ks)) := by
    rw [mulPT_loop en hct.of_key hfit hne hlen hshare]
    exact hvec.bind _
  refine ⟨.inl hthrows, fun _ => ⟨(x, k), hpair, ?_⟩, fun _ => hthrows⟩
  exact (throws_one_iff false share h href hpk hct hx).mpr hneg

/-- A loop that is too long for its counter is not defined. -/
theorem loop_of_law (hct : EncryptsVec P.n pk ct ms) (hne : ct.texts ≠ [])
    (hfit : Fitting ct.texts ks) (hlen : ct.texts.length ≠ 1)
    (hshare : share ct.texts.length = 0) {me : ModExp}
    (hlaw : SignedLaw P pk ct ms ks en.ipp (en.toModExp false share) me) :
    ct.texts.length < 2 ^ 31 := by
  have hraised : (raised pk ct.texts ks).length = ct.texts.length := length_raised hfit
  by_contra hlong
  have hundef : mulPT (en.toModExp false share) ct (BaseText.ofVec ks)
      = .error (.undefined "overflow of a loop counter") := by
    rw [mulPT_loop en hct.of_key hfit hne hlen hshare, Engines.ippSBModExpWrapper,
      List.length_map, hraised, intLoop, if_neg hlong]
    rfl
  rcases hlaw.exact with ⟨msg, hmsg⟩ | ⟨c, hc, -⟩
  · cases hundef.symm.trans hmsg
  · cases hundef.symm.trans hc

end

/-! ### When the law holds -/

/-- The vector goes through the loop over single numbers, and that in one thread. -/
def OneByOne (mb openmp : Bool) (share : ℕ → ℕ) (n : ℕ) : Prop :=
  mb = false ∧ openmp = false ∧ share n = 0

section
variable {mb openmp : Bool} {share : ℕ → ℕ} {P : PrimePair} {pk : PublicKey} {ct : CipherText}
  {ms ks : List ℤ}

/-- The law asks that no multiplier of several is negative. -/
theorem nonneg_of_law (hpk : pk.For P.n) (hct : EncryptsVec P.n pk ct ms) (hne : ct.texts ≠ [])
    (hfit : Fitting ct.texts ks) (hpath : openmp = true ∨ mb = true ∨ 0 < share ct.texts.length)
    (hlaw : SignedMultipliers P pk ct ms ks mb openmp share) (hlen : ct.texts.length ≠ 1) :
    ∀ k ∈ ks, 0 ≤ k := by
  intro k hk
  by_contra hneg
  have h := Engines.referenceOf_lawful openmp
  have href : (Engines.referenceOf openmp).mont.Refuses := Mont.reference_refuses
  obtain ⟨x, hx, hpair⟩ : ∃ x ∈ ct.texts, (x, k) ∈ multiplied ct.texts ks :=
    Vec.exists_broadcast hne hfit hk
  have hone := (throws_one_iff mb share h href hpk hct hx).mpr (not_le.mp hneg)
  have hall := (hlaw _ ModExp.reference h rfl href
    (ModExp.reference_lawful Short)).uniform.mpr ⟨(x, k), hpair, hone⟩
  rw [mulPT_vec hct.of_key hfit hlen] at hall
  have hraised : (raised pk ct.texts ks).length = ct.texts.length := length_raised hfit
  have hodd : ∀ t ∈ raised pk ct.texts ks, Odd t.2.2 := by
    intro t ht
    obtain ⟨ht, -, hm⟩ := mem_raised ht
    rw [hm]
    exact (hct.admissible P.n_odd hpk ht (le_refl 0)).odd
  rcases hall.of_bind with hvec | ⟨_, -, hpure⟩
  · refine Engines.not_throws_modExp hodd ?_ (hraised ▸ hlen) hvec
    rwa [List.length_map, hraised]
  · exact not_throws_ok hpure

/-- Multipliers that are not negative keep the law only in vectors that can be counted, and where
they reach the engines. -/
theorem reached_of_law (hpk : pk.For P.n) (hct : EncryptsVec P.n pk ct ms)
    (hfit : Fitting ct.texts ks) (hshare : share ct.texts.length ≤ ct.texts.length)
    (hlaw : SignedMultipliers P pk ct ms ks mb openmp share) (hlen : ct.texts.length ≠ 1)
    (hks : ∀ k ∈ ks, 0 ≤ k) : ct.texts.length < 2 ^ 31 ∧
      Engines.Reached mb (bitLen pk.nsquare) (share ct.texts.length) (raised pk ct.texts ks) := by
  have hstrict := Engines.strict_lawful Ipp.reference_lawful openmp
  have href : (Engines.strict Ipp.reference openmp).mont.Refuses := Mont.reference_refuses
  have h := hlaw _ ModExp.reference hstrict rfl href (ModExp.reference_lawful Short)
  -- no element is refused, so the vector comes back
  have hnone : ¬ Throws (mulPT ((Engines.strict Ipp.reference openmp).toModExp mb share) ct
      (BaseText.ofVec ks)) := by
    intro hthrows
    obtain ⟨ck, hck, hthrows⟩ := h.uniform.mp hthrows
    obtain ⟨x, hx, k, hk, rfl⟩ := Vec.mem_broadcast hck
    have hneg := (throws_one_iff mb share hstrict href hpk hct hx).mp hthrows
    exact absurd (hks k hk) hneg.not_ge
  obtain ⟨c, hc, hdec⟩ := h.exact.resolve_left hnone
  have hcount : ct.texts.length < 2 ^ 31 := by
    have hfit' := hfit
    rw [Fitting, hct.length_eq] at hfit'
    have hsize : (Vec.broadcast (fun m k => k * m % (P.n : ℤ)) ms ks).length = c.size :=
      PrivateKey.size_of_decrypt (hdec true)
    rw [hct.length_eq, ← Vec.length_broadcast (fun m k => k * m % (P.n : ℤ)) hfit', hsize]
    exact PrivateKey.lt_of_decrypt (hdec true)
  refine ⟨hcount, ?_⟩
  rw [mulPT_vec hct.of_key hfit hlen] at hc
  obtain ⟨rs, hrs, -⟩ := Result.of_bind_ok hc
  have hraised : (raised pk ct.texts ks).length = ct.texts.length := length_raised hfit
  have hadm := raised_admissible hpk hct hks
  have hmod : ∀ t ∈ raised pk ct.texts ks, bitLen t.2.2 = bitLen pk.nsquare := fun t ht => by
    rw [(mem_raised ht).2.2]
  change (Engines.strict Ipp.reference openmp).modExp mb
    (share ((raised pk ct.texts ks).map (·.1)).length) (bases _) (exps _) (mods _) = _ at hrs
  rw [List.length_map, hraised] at hrs
  exact (Engines.served_iff_reached hadm hmod (hraised ▸ hcount)).mp
    (Engines.served_of_ok Ipp.reference_lawful hadm hmod (hraised ▸ hshare)
      (by unfold Engines.qatModexpBatchSize; omega) hrs)

end

/-- The primes 3 and 5. -/
def threeFive : PrimePair := ⟨3, 5, Nat.prime_three, Nat.prime_five, by decide, by decide⟩

/-- The public key of 15. -/
def keyFifteen : PublicKey :=
  { isInitialized := true, n := 15, g := 16, nsquare := 225, bits := 4, dwords := 1, hs := 0,
    randbits := 0, djnEnabled := false, r := [], testv := false }

theorem keyFifteen_for : keyFifteen.For threeFive.n := ⟨rfl, rfl, rfl⟩

/-- 1 and 2, encrypted in the clear. -/
theorem encryptsVec_one_two :
    EncryptsVec threeFive.n keyFifteen (ofVec keyFifteen [16, 31]) [1, 2] :=
  ⟨of_ofVec _ _, .cons (Cipher.of_encrypts (by decide) (Encrypts.fresh 15 1))
    (.cons (Cipher.of_encrypts (by decide) (Encrypts.fresh 15 2)) .nil)⟩

end Ipcl
