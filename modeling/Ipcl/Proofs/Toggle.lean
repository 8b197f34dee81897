/-
Two ways of decrypting on one set of engines.

What the two ways make of the powers is the same for every unit.  But they ask for
different powers: one for those modulo `n ^ 2`, the other for those modulo `p ^ 2` and
`q ^ 2`.  On a build with the device a power may come back as a string that is not
read, and one way may meet such a power where the other does not.  Both count the
ciphertexts in an `int`.
-/
import Ipcl.Proofs.Decrypt
import Ipcl.Proofs.Serves

namespace Ipcl

open BigNumber Paillier

namespace PrivateKey

/-- Both ways write the same plaintexts, and `decrypt` does not depend on the choice. -/
structure CrtAgrees (ipp : Ipp) (me : ModExp) (sk : PrivateKey) (n : ℕ) (cs : List ℤ) :
    Prop where
  same : decryptCRT ipp me sk cs.length cs = decryptRAW ipp me sk cs.length cs
  plain : cs ≠ [] → ∃ ms, decryptCRT ipp me sk cs.length cs = .ok ms ∧ ms.length = cs.length ∧
    ∀ m ∈ ms, 0 ≤ m ∧ m < n
  toggle : ∀ (ct : CipherText) (crt : Bool), ct.texts = cs → ct.size = cs.length →
    decrypt ipp me (sk.enableCRT crt) ct = decrypt ipp me sk ct

/-- The powers the two ways ask for, for one ciphertext. -/
def powersFor (p q : ℕ) (c : ℤ) : List Triple :=
  [(c, ((Nat.lcm (p - 1) (q - 1) : ℕ) : ℤ), ((p * q : ℕ) : ℤ) * (p * q : ℕ)),
    (c % ((p : ℤ) * p), (p : ℤ) - 1, (p : ℤ) * p), (c % ((q : ℤ) * q), (q : ℤ) - 1, (q : ℤ) * q)]

/-- The device can give all of them back for these ciphertexts. -/
def ReadBack (p q : ℕ) (cs : List ℤ) : Prop :=
  ∀ c ∈ cs, ∀ t ∈ powersFor p q c, Readable (bitsizeWord (bitLen t.2.2)) t.power.natAbs

theorem readBack_iff {p q : ℕ} {cs : List ℤ} : ReadBack p q cs ↔
    (∀ t ∈ lambdaPowers p q cs, Readable (bitsizeWord (bitLen t.2.2)) t.power.natAbs) ∧
      (∀ t ∈ factorPowers p cs, Readable (bitsizeWord (bitLen t.2.2)) t.power.natAbs) ∧
        ∀ t ∈ factorPowers q cs, Readable (bitsizeWord (bitLen t.2.2)) t.power.natAbs := by
  simp only [ReadBack, powersFor, lambdaPowers, factorPowers, List.forall_mem_cons,
    List.forall_mem_map, List.not_mem_nil, false_implies, implies_true, and_true, forall_and]

/-- The order of the primes is no matter. -/
theorem readBack_comm (p q : ℕ) (cs : List ℤ) : ReadBack p q cs ↔ ReadBack q p cs := by
  simp only [ReadBack, powersFor, List.forall_mem_cons, Nat.lcm_comm (p - 1), Nat.mul_comm p,
    List.not_mem_nil, false_implies, implies_true, and_true]
  exact forall₂_congr fun _ _ => by tauto

section
variable {en : Engines} (h : en.Lawful) {mb : Bool} {share : ℕ → ℕ} (P : PrimePair) {cs : List ℤ}
  (hshare : share cs.length ≤ cs.length)
include h hshare

/-- Powers that are given back serve both ways. -/
theorem served_of_readBack (hne : cs ≠ []) (hlen : cs.length < 2 ^ 31)
    (hcs : ∀ c ∈ cs, UnitResidue P.n c) (hread : ReadBack P.p P.q (cs.take (share cs.length))) :
    Served (en.toModExp mb share) P.p P.q cs := by
  obtain ⟨hlambda, hleft, hright⟩ := readBack_iff.mp hread
  have hserve : ∀ (f : ℤ → Triple) (m : ℤ), (∀ c, (f c).2.2 = m) →
      (∀ t ∈ cs.map f, Admissible t.1 t.2.1 t.2.2) → (∀ t ∈ cs.map f, Short t) →
      (∀ t ∈ (cs.take (share cs.length)).map f,
        Readable (bitsizeWord (bitLen t.2.2)) t.power.natAbs) →
      (en.toModExp mb share).Serves (cs.map f) := by
    intro f m hm hadm hshort hback
    have hmod : ∀ t ∈ cs.map f, t.2.2 = m := by
      intro t ht
      obtain ⟨c, -, rfl⟩ := List.mem_map.mp ht
      exact hm c
    refine Engines.serves_of_readable h ⟨by simpa using hne, by simpa using hlen, hmod, hadm⟩
      hshort (by simpa using hshare) fun t ht => ?_
    rw [List.length_map, ← List.map_take] at ht
    rw [← hmod t (List.map_subset f (List.take_subset _ _) ht)]
    exact hback t ht
  exact {
    lambda := hserve _ _ (fun _ => rfl) (lambdaPowers_admissible P.oddPrimes hcs)
      (lambdaPowers_short P.oddPrimes) hlambda
    left := hserve _ _ (fun _ => rfl)
      (factorPowers_admissible P.p_prime.one_lt P.oddPrimes.p_odd)
      (factorPowers_short P.p_prime.one_lt) hleft
    right := hserve _ _ (fun _ => rfl)
      (factorPowers_admissible P.q_prime.one_lt P.oddPrimes.q_odd)
      (factorPowers_short P.q_prime.one_lt) hright }

/-- Where both ways have returned, the powers have been given back. -/
theorem readBack_of_ok (hlen : cs.length < 2 ^ 31) (hcs : ∀ c ∈ cs, UnitResidue P.n c)
    {ms ms' : List ℤ}
    (hraw : decryptRAW en.ipp (en.toModExp mb share) (ofPair en.ipp P) cs.length cs = .ok ms)
    (hcrt : decryptCRT en.ipp (en.toModExp mb share) (ofPair en.ipp P) cs.length cs = .ok ms') :
    ReadBack P.p P.q (cs.take (share cs.length)) := by
  have hback : ∀ (f : ℤ → Triple) (m : ℤ), (∀ c, (f c).2.2 = m) →
      (∀ t ∈ cs.map f, Admissible t.1 t.2.1 t.2.2) →
      (∃ rs, (en.toModExp mb share).vec (bases (cs.map f)) (exps (cs.map f)) (mods (cs.map f))
        = .ok rs) →
      ∀ t ∈ (cs.take (share cs.length)).map f,
        Readable (bitsizeWord (bitLen t.2.2)) t.power.natAbs := by
    intro f m hm hadm hvec t ht
    obtain ⟨rs, hrs⟩ := hvec
    have hmod : ∀ t ∈ cs.map f, bitLen t.2.2 = bitLen m := by
      intro t ht
      obtain ⟨c, -, rfl⟩ := List.mem_map.mp ht
      rw [hm c]
    rw [hmod t (List.map_subset f (List.take_subset _ _) ht)]
    refine Engines.readable_of_vec h hadm hmod (by simpa using hlen) (by simpa using hshare) hrs
      t ?_
    rwa [List.length_map, ← List.map_take]
  obtain ⟨hleft, hright⟩ := vec_of_decryptCRT h.ipp P.oddPrimes hcrt
  exact readBack_iff.mpr
    ⟨hback _ _ (fun _ => rfl) (lambdaPowers_admissible P.oddPrimes hcs) (vec_of_decryptRAW hraw),
      hback _ _ (fun _ => rfl) (factorPowers_admissible P.p_prime.one_lt P.oddPrimes.p_odd) hleft,
      hback _ _ (fun _ => rfl) (factorPowers_admissible P.q_prime.one_lt P.oddPrimes.q_odd) hright⟩

end

section
variable {ipp : Ipp} {me : ModExp} {sk : PrivateKey} {n : ℕ} {cs : List ℤ}

/-- The choice makes no difference to `decrypt` where it makes none to the two functions. -/
theorem toggle_of_same
    (hsame : decryptCRT ipp me sk cs.length cs = decryptRAW ipp me sk cs.length cs)
    (ct : CipherText) (crt : Bool) (htexts : ct.texts = cs) (hsize : ct.size = cs.length) :
    decrypt ipp me (sk.enableCRT crt) ct = decrypt ipp me sk ct := by
  have hct : decryptCRT ipp me sk ct.getSize ct.getTexts
      = decryptRAW ipp me sk ct.getSize ct.getTexts := by
    simpa only [BaseText.getSize, BaseText.getTexts, htexts, hsize] using hsame
  exact (decrypt_enableCRT hct crt).trans (decrypt_enableCRT hct sk.enableCrt).symm

/-- Neither way has anything to do for the empty vector. -/
theorem crtAgrees_nil : CrtAgrees ipp me sk n [] := by
  have hsame : decryptCRT ipp me sk 0 [] = decryptRAW ipp me sk 0 [] := by
    rw [decryptCRT, decryptRAW, intLoop_ok (by decide)]
    cases hvec : me.vec [] [] [] with
    | error e => simp [hvec]
    | ok rs => simp [hvec]
  exact ⟨hsame, fun hne => absurd rfl hne, toggle_of_same hsame⟩

/-- Vectors that are too long for the counters are not decrypted. -/
theorem CrtAgrees.length_lt (h : CrtAgrees ipp me sk n cs) : cs.length < 2 ^ 31 := by
  by_cases hne : cs = []
  · rw [hne]
    simp
  · obtain ⟨ms, hms, -⟩ := h.plain hne
    exact lt_of_decryptCRT hms

end

/-- The power modulo `n ^ 2` of one ciphertext is a multiple of `2 ^ 32`. -/
theorem two_pow_dvd_power :
    powMod 2344193993907718999 131100 (8593801651 * 8593801651) = 19723616887074979840 := by
  have hpow : 2344193993907718999 ^ 131100 % (8593801651 * 8593801651) = 19723616887074979840 := by
    decide +kernel
  have hcast := congrArg (Nat.cast : ℕ → ℤ) hpow
  rwa [Int.natCast_mod, Nat.cast_pow] at hcast

end PrivateKey

end Ipcl
