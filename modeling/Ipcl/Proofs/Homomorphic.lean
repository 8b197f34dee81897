/-
Decrypting an expression gives its value.

The invariant of an evaluation is that every ciphertext it makes holds, element by
element, residues modulo `n ^ 2` that encrypt the value of the subexpression it
stands for.  Each operation keeps it by one of the laws of encryption (products
add, powers multiply), the induction over the tree does the rest, and decryption
reads the plaintexts off at the end.  Its loops count the elements in an `int`, so
that this is the whole story for fewer than `2 ^ 31` of them only.
-/
import Ipcl.Expr
import Ipcl.Proofs.Decrypt
import Ipcl.Proofs.PubKey

namespace Ipcl

open BigNumber Paillier Supply

/-- A ciphertext under `pk` that encrypts the numbers `ms`. -/
structure EncryptsVec (n : ℕ) (pk : PublicKey) (ct : CipherText) (ms : List ℤ) : Prop where
  of_key : CipherText.Of pk ct
  texts : List.Forall₂ (Cipher n) ct.texts ms

namespace EncryptsVec

variable {ipp : Ipp} {me : ModExp} {n : ℕ} {pk : PublicKey} {a b : CipherText} {xs ys : List ℤ}

theorem length_eq (ha : EncryptsVec n pk a xs) : a.texts.length = xs.length := ha.texts.length_eq

theorem cipher_of_mem (ha : EncryptsVec n pk a xs) {c : ℤ} (hc : c ∈ a.texts) :
    ∃ m, Cipher n c m := by
  obtain ⟨i, hi, rfl⟩ := List.getElem_of_mem hc
  have hi' : i < xs.length := by rw [← ha.length_eq]; exact hi
  exact ⟨xs[i], (List.forall₂_iff_get.mp ha.texts).2 i hi hi'⟩

theorem unitResidue (ha : EncryptsVec n pk a xs) {c : ℤ} (hc : c ∈ a.texts) :
    UnitResidue n c := by
  obtain ⟨m, hm⟩ := ha.cipher_of_mem hc
  exact hm.unitResidue

/-! ### The operations -/

theorem addCT (h : ipp.Lawful) (hn : 1 < n) (hpk : pk.For n) (ha : EncryptsVec n pk a xs)
    (hb : EncryptsVec n pk b ys) (hfit : ys.length = xs.length ∨ ys.length = 1) :
    ∃ c, CipherText.addCT ipp a b = .ok c ∧
      EncryptsVec n pk c (Vec.broadcast (fun x y => x + y) xs ys) := by
  have hfit' : CipherText.Fitting a.texts b.texts := by
    unfold CipherText.Fitting
    rwa [ha.length_eq, hb.length_eq]
  have hn0 : 0 ≤ pk.n := by
    rw [hpk.n_eq]
    omega
  refine ⟨_, CipherText.addCT_eq h hn0 ha.of_key hb.of_key hfit', CipherText.of_ofVec _ _, ?_⟩
  refine Vec.forall₂_broadcast (fun c m c' m' hc hc' => ?_) ha.texts hb.texts
  have hpos : (0 : ℤ) < (n : ℤ) * n := by positivity
  rw [CipherText.rawAdd, mul_eq h, hpk.nsquare_eq, mod_eq h _ hpos]
  exact Cipher.of_encrypts (by omega) (hc.encrypts.mul hc'.encrypts)

/-- The bases and exponents of a product are admissible. -/
theorem admissible (hodd : Odd n) (hpk : pk.For n) (ha : EncryptsVec n pk a xs) {x k : ℤ}
    (hx : x ∈ a.texts) (hk : 0 ≤ k) : Admissible x k pk.nsquare := by
  have hres := ha.unitResidue hx
  have hodd2 : Odd ((n : ℤ) * n) := by exact_mod_cast hodd.mul hodd
  rw [hpk.nsquare_eq]
  exact ⟨hodd2, hres.nonneg, hres.lt, hk⟩

/-- Powers of ciphertexts encrypt the products. -/
theorem powers (hn : 1 < n) (hpk : pk.For n) (ha : EncryptsVec n pk a xs) {ks : List ℤ}
    (hks : ∀ k ∈ ks, 0 ≤ k) :
    EncryptsVec n pk
      (CipherText.ofVec pk (Vec.broadcast (fun x k => powMod x k pk.nsquare) a.texts ks))
      (Vec.broadcast (fun x k => k * x) xs ks) := by
  refine ⟨CipherText.of_ofVec _ _, ?_⟩
  have hself : List.Forall₂ (fun k k' : ℤ => k = k' ∧ 0 ≤ k) ks ks :=
    List.forall₂_same.mpr fun k hk => ⟨rfl, hks k hk⟩
  refine Vec.forall₂_broadcast (fun c m k k' hc hk => ?_) ha.texts hself
  obtain ⟨rfl, hk0⟩ := hk
  have hpow := Cipher.of_encrypts (by omega) (hc.encrypts.pow k.toNat)
  rw [Int.toNat_of_nonneg hk0] at hpow
  rw [powMod, hpk.nsquare_eq]
  exact hpow

theorem mulPT {takes : Triple → Prop} (hme : me.Lawful takes) (hn : 1 < n) (hodd : Odd n)
    (hpk : pk.For n) (ha : EncryptsVec n pk a xs) (hne : xs ≠ []) (hlen : xs.length < 2 ^ 31)
    {ks : List ℤ} (hfit : ks.length = xs.length ∨ ks.length = 1) (hks : ∀ k ∈ ks, 0 ≤ k)
    (htakes : xs.length ≠ 1 → ∀ x ∈ a.texts, ∀ k ∈ ks, takes (x, k, pk.nsquare)) :
    ∃ c, CipherText.mulPT me a (BaseText.ofVec ks) = .ok c ∧
      EncryptsVec n pk c (Vec.broadcast (fun x k => k * x) xs ks) := by
  have hfit' : CipherText.Fitting a.texts ks := by
    unfold CipherText.Fitting
    rwa [ha.length_eq]
  have hne' : a.texts ≠ [] := by
    rw [← List.length_pos_iff, ha.length_eq]
    exact List.length_pos_iff.mpr hne
  have hadm : ∀ x ∈ a.texts, ∀ k ∈ ks, Admissible x k pk.nsquare := fun x hx k hk =>
    ha.admissible hodd hpk hx (hks k hk)
  have hserved : a.texts.length ≠ 1 → me.Serves (CipherText.raised pk a.texts ks) := by
    intro hone
    refine hme.vec_exact _ _ (CipherText.product_call hne' (ha.length_eq ▸ hlen) hfit' hadm) ?_
    intro t ht
    obtain ⟨x, hx, k, hk, rfl⟩ := Vec.mem_broadcast ht
    exact htakes (ha.length_eq ▸ hone) x hx k hk
  have hprod := CipherText.mulPT_eq hme.toOneExact ha.of_key hfit' hadm hserved
  exact ⟨_, hprod, ha.powers hn hpk hks⟩

end EncryptsVec

/-! ### Evaluating a tree -/

namespace Expr

variable {ipp : Ipp} {me : ModExp} (h : ipp.Lawful) {takes : Triple → Prop}
  (hme : me.Lawful takes) (hshort : ∀ t, Short t → takes t)

/-- What an evaluation of `e` leaves behind. -/
structure Good (n : ℕ) (pk : PublicKey) (e : Expr) (run : Evaluation) : Prop where
  result : EncryptsVec n pk run.result e.value
  made : ∀ ct ∈ run.made, ∃ ms, EncryptsVec n pk ct ms

/-- A result added to what was made before. -/
theorem Good.cons {n : ℕ} {pk : PublicKey} {e : Expr} {c : CipherText} {cts : List CipherText}
    (hc : EncryptsVec n pk c e.value) (hcts : ∀ ct ∈ cts, ∃ ms, EncryptsVec n pk ct ms) :
    Good n pk e ⟨c, c :: cts⟩ := by
  refine ⟨hc, fun ct hct => ?_⟩
  rcases List.mem_cons.mp hct with rfl | hct
  · exact ⟨_, hc⟩
  · exact hcts ct hct

include h hme hshort

theorem eval_yields {n : ℕ} (hn : 1 < n) (hodd : Odd n) {pk : PublicKey} (hpk : pk.Ready n)
    (htakes : ∀ v, takes (pk.raisedFor ipp v)) :
    ∀ {e : Expr}, e.WF n → e.length < 2 ^ 31 →
      Yields (pk.GoodDraw ipp) (e.eval ipp me pk) e.draws (Good n pk e) := by
  intro e
  induction e with
  | encrypt pt makeSecure =>
      intro hwf hlen
      rw [show (encrypt pt makeSecure).draws = PublicKey.drawsOf pt makeSecure + 0 from rfl]
      refine (PublicKey.encrypt_yields h hme hn hodd hpk htakes hwf fun _ => hlen).bind ?_
      intro c hcipher
      obtain ⟨hof, hc⟩ := hcipher
      exact Yields.pure (Good.cons ⟨hof, hc⟩ (by simp))
  | addCT a b iha ihb =>
      intro hwf hlen
      obtain ⟨ha, hb, hfit⟩ := hwf
      have hlen' : b.length < 2 ^ 31 := by
        rcases hfit with hfit | hfit
        · rw [hfit]
          exact hlen
        · omega
      refine (iha ha hlen).bind fun x hx => ?_
      rw [← Nat.add_zero b.draws]
      refine (ihb hb hlen').bind fun y hy => ?_
      rw [Fits, ← length_value ha, ← length_value hb] at hfit
      obtain ⟨c, hok, hc⟩ := hx.result.addCT h hn hpk.for_n hy.result hfit
      rw [hok, Rand.liftM_ok, pure_bind]
      refine Yields.pure (Good.cons hc fun ct hct => ?_)
      rcases List.mem_append.mp hct with hct | hct
      · exact hx.made ct hct
      · exact hy.made ct hct
  | addPT a pt iha =>
      intro hwf hlen
      obtain ⟨ha, hfit⟩ := hwf
      rw [← Nat.add_zero (addPT a pt).draws]
      refine (iha ha hlen).bind fun x hx => ?_
      have hne : pt ≠ [] := by
        have := length_pos ha
        rw [← List.length_pos_iff]
        rcases hfit with hfit | hfit <;> omega
      have hclear : false = true → pt.length < 2 ^ 31 := nofun
      have henc := PublicKey.encrypt_yields h hme hn hodd hpk htakes hne hclear
      unfold CipherText.addPT
      rw [hx.result.of_key.pk_eq, deref_some, Rand.liftM_ok, pure_bind, bind_assoc]
      refine henc.bind (l := 0) ?_
      intro b hcipher
      obtain ⟨hof, hb⟩ := hcipher
      rw [Fits, ← length_value ha] at hfit
      obtain ⟨c, hok, hc⟩ := hx.result.addCT h hn hpk.for_n ⟨hof, hb⟩ hfit
      rw [hok, Rand.liftM_ok, pure_bind]
      refine henc.bind (l := 0) ?_
      intro b' hcipher
      obtain ⟨hof', hb'⟩ := hcipher
      refine Yields.pure (Good.cons hc fun ct hct => ?_)
      rcases List.mem_cons.mp hct with rfl | hct
      · exact ⟨_, hof', hb'⟩
      · exact hx.made ct hct
  | mulPT a pt iha =>
      intro hwf hlen
      obtain ⟨ha, hfit, hks⟩ := hwf
      rw [← Nat.add_zero (mulPT a pt).draws]
      refine (iha ha hlen).bind fun x hx => ?_
      have hne : a.value ≠ [] := by
        rw [← List.length_pos_iff, length_value ha]
        exact length_pos ha
      rw [Fits, ← length_value ha] at hfit
      have hbound : a.value.length < 2 ^ 31 := (length_value ha).symm ▸ hlen
      obtain ⟨c, hok, hc⟩ := hx.result.mulPT hme hn hodd hpk.for_n hne hbound hfit
        (fun k hk => (hks k hk).1) fun _ x _ k hk => hshort _ (by
          obtain ⟨h0, hk⟩ := hks k hk
          rw [hpk.for_n.nsquare_eq]
          exact short_of_le h0 (by nlinarith))
      rw [hok, Rand.liftM_ok, pure_bind]
      exact Yields.pure (Good.cons hc hx.made)

end Expr

/-! ### Decrypting the result -/

section
variable {ipp : Ipp} {me : ModExp} (h : ipp.Lawful)

section
variable (hme : me.Lawful Short)
include h hme

/-- Decrypting a vector of units. -/
theorem PrivateKey.decrypt_units (P : PrimePair) {pk : PublicKey} (hpk : pk.For P.n)
    {ct : CipherText} (hof : CipherText.Of pk ct) (hne : ct.texts ≠ [])
    (hlen : ct.texts.length < 2 ^ 31) (hunit : ∀ c ∈ ct.texts, UnitResidue P.n c) (crt : Bool) :
    decrypt ipp me ((ofPair ipp P).enableCRT crt) ct
      = .ok (BaseText.ofVec (ct.texts.map (rawPlain ipp P))) := by
  have hserved := served_of_lawful P.oddPrimes hme hne hlen hunit
  have hraw := decryptRAW_eq h P hserved hlen hunit
  have hcrt := (decryptCRT_eq h P hserved hlen hunit).trans hraw.symm
  have hsize : ct.getSize = ct.texts.length := hof.size_eq
  have hpos : 0 < ct.texts.length := List.length_pos_iff.mpr hne
  have hn : eq ipp pk.n P.n = true := by
    rw [hpk.n_eq, eq_of_nonneg h (by omega) (by omega), decide_eq_true rfl]
  rw [decrypt_enableCRT (by rwa [hsize]) crt]
  have hdec : decryptRAW ipp me ((ofPair ipp P).enableCRT false) ct.texts.length ct.texts
      = .ok (ct.texts.map (rawPlain ipp P)) := hraw
  have hinit : ((ofPair ipp P).enableCRT false).isInitialized = true := rfl
  have hoff : ((ofPair ipp P).enableCRT false).enableCrt = false := rfl
  have hnoff : ((ofPair ipp P).enableCRT false).n = P.n := rfl
  simp only [decrypt, hinit, hoff, hnoff, hof.pk_eq, hn, hsize, hpos, BaseText.getTexts,
    hdec, errorCheck_true, deref_some, decide_true, Result.bind_ok, Bool.false_eq_true, if_false]
  rfl

theorem PrivateKey.decrypt_encryptsVec (P : PrimePair) {pk : PublicKey} (hpk : pk.For P.n)
    {ct : CipherText} {ms : List ℤ} (hct : EncryptsVec P.n pk ct ms) (hne : ms ≠ [])
    (hlen : ms.length < 2 ^ 31) (crt : Bool) :
    decrypt ipp me ((ofPair ipp P).enableCRT crt) ct
      = .ok (BaseText.ofVec (ms.map (· % (P.n : ℤ)))) := by
  have hne' : ct.texts ≠ [] := by
    rw [← List.length_pos_iff, hct.length_eq]
    exact List.length_pos_iff.mpr hne
  have hplain : ct.texts.map (rawPlain ipp P) = ms.map (· % (P.n : ℤ)) := by
    rw [← List.forall₂_eq_eq_eq, List.forall₂_map_left_iff, List.forall₂_map_right_iff]
    exact hct.texts.imp fun c m hc => rawPlain_of_encrypts h P hc.encrypts
  rw [decrypt_units h hme P hpk hct.of_key hne' (hct.length_eq ▸ hlen)
    (fun c hc => hct.unitResidue hc) crt, hplain]

end

/-- The evaluation of `e` comes to its end, every ciphertext made on the way holds units in
`[1, n ^ 2)`, the result has the length of the leftmost operand, and what it decrypts to is the
value of `e` over the integers. -/
def Evaluates (ipp : Ipp) (me : ModExp) (n : ℕ) (pk : PublicKey) (sk : PrivateKey) (e : Expr)
    (draws : Draws) : Prop :=
  ∃ run, e.eval ipp me pk draws = .ok (run, draws.drop e.draws) ∧
    (∀ ct ∈ run.made, ∀ c ∈ ct.texts, 1 ≤ c ∧ c < (n : ℤ) ^ 2 ∧ Int.gcd c n = 1) ∧
    (run.result.size = e.length ∧ run.result.texts.length = e.length) ∧
    ∀ crt, PrivateKey.decrypt ipp me (sk.enableCRT crt) run.result
      = .ok (BaseText.ofVec (e.value.map (· % (n : ℤ))))

/-- A result that has been decrypted has fewer than `2 ^ 31` elements. -/
theorem Evaluates.length_lt {n : ℕ} {pk : PublicKey} {sk : PrivateKey} {e : Expr} {draws : Draws}
    (hev : Evaluates ipp me n pk sk e draws) : e.length < 2 ^ 31 := by
  obtain ⟨run, -, -, hsize, hdec⟩ := hev
  rw [← hsize.1]
  exact PrivateKey.lt_of_decrypt (hdec true)

include h

/--
**Evaluating under encryption and decrypting is evaluating over the integers, for fewer than
`2 ^ 31` elements.**

`takes` is what the exponentiation on vectors is known to be right for.  With a longer vector
the loops of `decrypt`, whose counter is an `int`, are undefined.
-/
theorem homomorphic_evaluation {takes : Triple → Prop} (hme : me.Lawful takes)
    (hshort : ∀ t, Short t → takes t) {p q : ℕ} (hp : p.Prime) (hq : q.Prime) (hne : p ≠ q)
    (hcop : Nat.gcd (p * q) ((p - 1) * (q - 1)) = 1) {bits : ℤ} (hbits : 2 ≤ bits) {djn : Bool}
    {pk : PublicKey} {supply rest : Draws}
    (hpk : PublicKey.new ipp me (p * q : ℕ) bits djn supply = .ok (pk, rest))
    (htakes : ∀ v, takes (pk.raisedFor ipp v))
    (hhs : djn = true → IsCoprime pk.hs ((p * q : ℕ) : ℤ)) {sk : PrivateKey}
    (hsk : PrivateKey.Built ipp me p q sk) {e : Expr} (hwf : e.WF (p * q)) {draws : Draws}
    (hlen : e.draws ≤ draws.length) (hgood : ∀ d ∈ draws, pk.GoodDraw ipp d) :
    Evaluates ipp me (p * q) pk sk e draws ↔ e.length < 2 ^ 31 := by
  refine ⟨Evaluates.length_lt, fun hcount => ?_⟩
  have hkey := hsk.eq_ofPair h hme.toOneExact hp hq hne hcop
  have hpq := PrimePair.n_ofPrimes hp hq hne hcop
  rw [← hpq] at hpk hhs hwf ⊢
  generalize PrimePair.ofPrimes hp hq hne hcop = P at hkey hpk hhs hwf ⊢
  subst hkey
  have hn : 1 < P.n := P.q_prime.one_lt.trans P.q_lt_n
  have hready : pk.Ready P.n :=
    (PublicKey.new_returns h hme.toOneExact hn P.n_odd bits djn supply pk rest (by simp)
      hpk).1.ready P.n_pos hbits hhs
  obtain ⟨run, hrun, hres⟩ :=
    Expr.eval_yields h hme hshort hn P.n_odd hready htakes hwf hcount draws hlen hgood
  have hval : e.value ≠ [] := by
    rw [← List.length_pos_iff, Expr.length_value hwf]
    exact Expr.length_pos hwf
  have htexts : run.result.texts.length = e.length := by
    rw [hres.result.length_eq, Expr.length_value hwf]
  refine ⟨run, hrun, ?_, ⟨hres.result.of_key.size_eq.trans htexts, htexts⟩, fun crt => ?_⟩
  · intro ct hct c hc
    obtain ⟨ms, hms⟩ := hres.made ct hct
    have hunit := hms.unitResidue hc
    refine ⟨hunit.one_le hn, ?_, Int.isCoprime_iff_gcd_eq_one.mp hunit.coprime⟩
    rw [sq]
    exact hunit.lt
  · exact PrivateKey.decrypt_encryptsVec h (hme.mono hshort) P hready.for_n hres.result hval
      (by rwa [Expr.length_value hwf]) crt

end

/-- Twice an obfuscated vector with a negative number, plus a number encrypted in the
clear, under the key with the primes 3 and 5. -/
theorem homomorphic_evaluation_three_five : ∃ pk sk, Evaluates Ipp.reference ModExp.reference 15 pk
    sk (.addPT (.mulPT (.encrypt [7, -3] true) [2]) [-4]) [.ok 0, .ok 1] := by
  have hsk := PrivateKey.Built.modulus (PrivateKey.ofModulus_eq Ipp.reference_lawful
    ModExp.reference_exact Nat.prime_three Nat.prime_five (by decide) (by decide))
  have hgood : ∀ d ∈ ([.ok 0, .ok 1] : Draws), PublicKey.GoodDraw Ipp.reference
      { isInitialized := true, n := 15, g := 16, nsquare := 225, bits := 4, dwords := 1, hs := 0,
        randbits := 0, djnEnabled := false, r := [], testv := false } d := by
    intro d hd
    rcases List.mem_pair.mp hd with rfl | rfl
    · exact ⟨0, rfl, fun _ => Int.isCoprime_iff_gcd_eq_one.mpr (by decide)⟩
    · exact ⟨1, rfl, fun _ => Int.isCoprime_iff_gcd_eq_one.mpr (by decide)⟩
  exact ⟨_, _, (homomorphic_evaluation Ipp.reference_lawful
    (ModExp.reference_lawful fun _ => True) (fun _ _ => True.intro) Nat.prime_three Nat.prime_five
    (by decide) (by decide) (by decide : (2 : ℤ) ≤ 4)
    (rfl : PublicKey.new Ipp.reference ModExp.reference (3 * 5 : ℕ) 4 false [] = .ok (_, []))
    (fun _ => True.intro) nofun hsk (e := .addPT (.mulPT (.encrypt [7, -3] true) [2]) [-4])
    (by simp [Expr.WF, Expr.Fits, Expr.length]) (by decide) hgood).mpr (by decide)⟩

/-- `2 ^ 31` zeros, encrypted in the clear, are too many. -/
theorem not_homomorphic_evaluation_long : ∃ pk sk,
    PublicKey.new Ipp.reference ModExp.reference 15 4 false [] = .ok (pk, []) ∧
      PrivateKey.Built Ipp.reference ModExp.reference 3 5 sk ∧
      ¬ Evaluates Ipp.reference ModExp.reference 15 pk sk
        (.encrypt (List.replicate (2 ^ 31) 0) false) [] := by
  have hsk := PrivateKey.Built.modulus (PrivateKey.ofModulus_eq Ipp.reference_lawful
    ModExp.reference_exact Nat.prime_three Nat.prime_five (by decide) (by decide))
  refine ⟨_, _, rfl, hsk, fun hev => ?_⟩
  have hlt := hev.length_lt
  rw [Expr.length, List.length_replicate] at hlt
  exact lt_irrefl _ hlt

end Ipcl
